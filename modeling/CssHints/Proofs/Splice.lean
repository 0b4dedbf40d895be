import CssHints.Proofs.Concatenation
import CssHints.Proofs.Cover

/-!
# `CssHints.Proofs.Splice`: a source with a mark in it

A brace, a semicolon, a comma or a colon divides a source into two texts that are read apart: no
token of the first text takes in the mark, unless a lone backslash stands in front of it, and what
stands behind the mark is read as at the start of a source. `tokenize_append_mark` says so for
tokens, for errors and for the places of both.

`CssHints.Proofs.Chunk` has the pieces (`Solid.mark`). Three facts turn pieces into tokens.

* A comment in front of a mark leaves nothing, as at the end of a source (`ofPieces_append_mark`).
* A mark is neither a gap nor a word, so behind it gaps are as at the start (`ofPieces_inert`).
* A place of the second text becomes a place of the source by `Location.within`, and tokens move
  with their places (`ofPieces_within`).
-/

set_option autoImplicit false

namespace CssHints

namespace Location

/-- The place in a source of the place `m` of a text that starts at `l`. The columns of the first
line go on from the column of `l`. -/
def within (l m : Location) : Location where
  offset := l.offset + m.offset
  line := l.line + m.line - 1
  column := if m.line = 1 then l.column + m.column - 1 else m.column

/-- A text that starts at a place has its first character there. -/
@[simp] theorem within_start (l : Location) : l.within .start = l := by
  rcases l with ⟨offset, line, column⟩
  simp [within, start]

/-- A character moves a place in the source as it moves the place in the text. A line feed sets the
column back in both, so only the first line knows where the text starts. -/
theorem within_next {m : Location} (hm : 1 ≤ m.line) (l : Location) (c : Char) :
    (l.within m).next c = l.within (m.next c) := by
  have hne : m.line + 1 ≠ 1 := by omega
  by_cases hc : c = '\n'
  · simp only [next, within, hc, if_true, hne, if_false, Location.mk.injEq, and_true]
    exact ⟨Nat.add_assoc .., by omega⟩
  · simp only [next, within, hc, if_false, Location.mk.injEq, true_and]
    refine ⟨Nat.add_assoc .., ?_⟩
    split <;> omega

/-- A text moves a place in the source as it moves the place in the text that it is part of. -/
theorem within_after {m : Location} (hm : 1 ≤ m.line) (l : Location) (s : Text) :
    (l.within m).after s = l.within (m.after s) := by
  induction s generalizing m with
  | nil => rfl
  | cons c s ih =>
      have hnext : 1 ≤ (m.next c).line := by
        unfold next
        split
        · dsimp only
          omega
        · exact hm
      rw [after_cons, after_cons, within_next hm, ih hnext]

end Location

namespace Token

/-- The token of a text that starts at `l`, in the source. -/
def within (l : Location) (t : Token) : Token := { t with loc := l.within t.loc }

/-- The tokens of a text move with the place where it starts. Which pieces leave a token does not
depend on places. -/
theorem ofPieces_within (l : Location) (last : Option Kind) {m : Location} (hm : 1 ≤ m.line)
    (ps : List Piece) :
    ofPieces last (l.within m) ps = (ofPieces last m ps).map (within l) := by
  induction ps generalizing last m with
  | nil => rfl
  | cons p ps ih =>
      -- no text goes back in lines
      have hafter (w : Text) : 1 ≤ (m.after w).line := by
        rw [Location.line_after]
        omega
      cases p with
      | blanks w =>
          simp only [ofPieces, Location.within_after hm]
          split
          · exact ih _ (hafter w)
          · exact congrArg (within l (space m) :: ·) (ih _ (hafter w))
      | comment w =>
          simp only [ofPieces, Location.within_after hm]
          split
          · exact congrArg (within l (space m) :: ·) (ih _ (hafter w))
          · exact ih _ (hafter w)
      | lexeme k w =>
          simp only [ofPieces, Location.within_after hm]
          exact congrArg (within l ⟨k, w, m⟩ :: ·) (ih _ (hafter w))

/-- Behind a token that takes nothing in and is no gap, the tokens are as at the start. So what
follows a mark is read without looking back. -/
theorem ofPieces_inert {last : Option Kind} (h : Inert last) (hgap : last ≠ some .whitespace)
    (loc : Location) (ps : List Piece) : ofPieces last loc ps = ofPieces none loc ps := by
  induction ps generalizing loc with
  | nil => rfl
  | cons p ps ih =>
      cases p with
      | blanks w => rw [ofPieces, ofPieces, if_neg hgap, if_neg (by simp)]
      | comment w =>
          rw [ofPieces, ofPieces, joins_of_inert h, joins_of_inert (by simp [Inert])]
          exact ih _
      | lexeme k w => rfl

/-- The tokens of pieces around a mark are those in front of it, the mark and those behind it. A
comment in front of the mark leaves the same as at the end of the text, since nothing runs into a
mark. -/
theorem ofPieces_append_mark {d : Char} (hd : isMark d = true) (last : Option Kind)
    (loc : Location) (k : Kind) (ps qs : List Piece) :
    ofPieces last loc (ps ++ .lexeme k [d] :: qs) =
      ofPieces last loc ps ++ ⟨k, [d], loc.after (ps.flatMap Piece.text)⟩ ::
        ofPieces (some k) (loc.after (ps.flatMap Piece.text ++ [d])) qs := by
  induction ps generalizing last loc with
  | nil => rfl
  | cons p ps ih =>
      -- a comment looks at the piece behind it, and nothing runs into a mark
      have hjoins : joins last (ps ++ .lexeme k [d] :: qs) = joins last ps := by
        cases last with
        | none => rfl
        | some l =>
            cases ps with
            | cons p ps => rfl
            | nil =>
                have hsep := isSeparator_of_isMark hd
                simp [joins, Piece.text, startsName, startsEscape, isNameChar_separator hsep,
                  ne_of_separator hsep]
      cases p with
      | blanks w =>
          simp only [List.cons_append, ofPieces, ih, List.flatMap_cons, Piece.text,
            List.append_assoc, Location.after_append]
          split <;> rfl
      | comment w =>
          simp only [List.cons_append, ofPieces, hjoins, ih, List.flatMap_cons, Piece.text,
            List.append_assoc, Location.after_append]
          split <;> rfl
      | lexeme k' w =>
          simp only [List.cons_append, ofPieces, ih, List.flatMap_cons, Piece.text,
            List.append_assoc, Location.after_append]

/-- A character that stands for itself takes nothing in. -/
theorem inert_ofChar (c : Char) : Inert (some (Kind.ofChar c)) := by
  intro k hk
  obtain rfl : Kind.ofChar c = k := by simpa using hk
  unfold Kind.ofChar
  split <;> rfl

/-- A text whose last token is no lone backslash does not dangle. Otherwise its last piece would be
such a backslash, and a lexeme that comes last is the last token. -/
theorem not_dangling_of_tokenize {a : Text} {ts : List Token} (ha : tokenize a = .ok ts)
    (hlast : ∀ t ∈ ts.dropLast.getLast?, ¬(t.kind = .delim ∧ t.value = ['\\'])) :
    ¬Dangling a := by
  intro h
  obtain ⟨-, rfl⟩ := tokenize_eq_ok_iff.1 ha
  obtain ⟨ps, hps⟩ := List.getLast?_eq_some_iff.1 h
  obtain ⟨us, hus⟩ := exists_bare_append_lexeme none ps .delim ['\\']
  rw [List.dropLast_concat] at hlast
  have hmap := congrArg List.getLast? hus
  rw [← hps, bare, List.getLast?_map, List.getLast?_concat] at hmap
  obtain ⟨t, ht, he⟩ := Option.map_eq_some_iff.1 hmap
  exact hlast t ht ⟨congrArg Token.kind he, congrArg Token.value he⟩

section Mark

variable {a b : Text} {d : Char} {ts : List Token}

/-- The pieces of two texts with a mark between them are those of each, and the mark. -/
theorem cut_mark (hd : isMark d = true) (hstuck : (cut a).stuck = none) (ha : ¬Dangling a)
    (b : Text) :
    cut (a ++ d :: b) =
      ⟨(cut a).pieces ++ .lexeme (.ofChar d) [d] :: (cut b).pieces, (cut b).stuck⟩ := by
  have hsealed := Solid.mark ⟨hstuck, ha⟩ hd b
  rwa [List.append_assoc, List.singleton_append, List.append_assoc,
    List.singleton_append] at hsealed

/-- The tokens of two texts with a mark between them: those of the first without its end, the mark,
and those of the second at their places in the whole. -/
theorem tokenize_mark_of_ok (hd : isMark d = true) (ha : tokenize a = .ok ts)
    (hdangling : ¬Dangling a) {us : List Token} (hb : tokenize b = .ok us) :
    tokenize (a ++ d :: b) =
      .ok (ts.dropLast ++ ⟨.ofChar d, [d], .after .start a⟩ ::
        us.map (within (.after .start (a ++ [d])))) := by
  obtain ⟨hstuck, rfl⟩ := tokenize_eq_ok_iff.1 ha
  obtain ⟨hstuck', rfl⟩ := tokenize_eq_ok_iff.1 hb
  have hcut := cut_mark hd hstuck hdangling b
  refine tokenize_eq_ok_iff.2 ⟨by rw [hcut, hstuck'], ?_⟩
  -- behind the mark the tokens are those of the second text, only farther on
  have hbehind : ofPieces (some (.ofChar d)) (.after .start (a ++ [d])) (cut b).pieces =
      (ofPieces none .start (cut b).pieces).map (within (.after .start (a ++ [d]))) := by
    rw [ofPieces_inert (inert_ofChar d) (by simpa using ofChar_ne_whitespace d),
      ← ofPieces_within _ _ (by decide), Location.within_start]
  have hend : within (.after .start (a ++ [d])) ⟨.eof, [], .after .start b⟩ =
      ⟨.eof, [], .after .start (a ++ d :: b)⟩ := by
    rw [within, ← Location.within_after (by decide), Location.within_start,
      ← Location.after_append, List.append_assoc, List.singleton_append]
  rw [hcut]
  dsimp only
  rw [List.dropLast_concat, ofPieces_append_mark hd, flatMap_text_cut hstuck, hbehind,
    List.map_append, List.map_singleton, hend, List.append_assoc, List.cons_append]

/-- The error of two texts with a mark between them is that of the second, at its place in the
whole. -/
theorem tokenize_mark_of_error (hd : isMark d = true) (ha : tokenize a = .ok ts)
    (hdangling : ¬Dangling a) {e : LexError} (hb : tokenize b = .error e) :
    tokenize (a ++ d :: b) =
      .error ⟨e.fault, (Location.after .start (a ++ [d])).within e.loc⟩ := by
  obtain ⟨hstuck, -⟩ := tokenize_eq_ok_iff.1 ha
  have hcut := cut_mark hd hstuck hdangling b
  rw [tokenize] at hb ⊢
  rw [hcut]
  cases hstuck' : (cut b).stuck with
  | none =>
      rw [hstuck'] at hb
      cases hb
  | some stuck =>
      rw [hstuck'] at hb
      cases hb
      dsimp only
      rw [← Location.within_after (by decide), Location.within_start, ← Location.after_append,
        List.flatMap_append, flatMap_text_cut hstuck, List.flatMap_cons, List.append_assoc]
      rfl

/-- An error stands behind a front part of the source. -/
theorem exists_front_of_error {e : LexError} (hb : tokenize b = .error e) :
    ∃ front rest, b = front ++ rest ∧ e.loc = .after .start front := by
  rw [tokenize] at hb
  split at hb
  · cases hb
    exact ⟨_, _, (cut_append b).symm, rfl⟩
  · cases hb

end Mark

/-- A token by its class, its text and the number of characters before it. -/
def record (t : Token) : Kind × Text × Nat := (t.kind, t.value, t.loc.offset)

/-- **A source divided by a mark.** A brace, a semicolon, a comma or a colon behind a text that does
not end with a lone backslash leaves the tokens of the text as they are, and what follows it is read
as on its own: the tokens are those of the two texts with the mark between them, and an error in the
second text is an error of the whole. All places move by what stands in front. -/
theorem tokenize_append_mark (a b : Text) (c : Char) (ts : List Token)
    (hc : c ∈ ['\x7b', '\x7d', ';', ',', ':']) (ha : tokenize a = .ok ts)
    (hlast : ∀ t ∈ ts.dropLast.getLast?, ¬(t.kind = .delim ∧ t.value = ['\\'])) :
    ((∃ vs, tokenize (a ++ c :: b) = .ok vs) ↔ ∃ us, tokenize b = .ok us) ∧
      (∀ us, tokenize b = .ok us → ∃ vs, tokenize (a ++ c :: b) = .ok vs ∧
        vs.map record = ts.dropLast.map record ++ (.ofChar c, [c], a.length) ::
          us.map fun t => (t.kind, t.value, a.length + 1 + t.loc.offset)) ∧
      ∀ e, tokenize b = .error e → ∃ e', tokenize (a ++ c :: b) = .error e' ∧
        e'.fault = e.fault ∧ e'.loc.offset = a.length + 1 + e.loc.offset ∧
        e'.loc = .after .start ((a ++ c :: b).take (a.length + 1 + e.loc.offset)) := by
  have hmark : isMark c = true := by
    simp only [List.mem_cons, List.not_mem_nil, or_false] at hc
    rcases hc with rfl | rfl | rfl | rfl | rfl <;> decide
  have hdangling := not_dangling_of_tokenize ha hlast
  refine ⟨⟨?_, ?_⟩, ?_, ?_⟩
  · rintro ⟨vs, hvs⟩
    cases hb : tokenize b with
    | ok us => exact ⟨us, rfl⟩
    | error e =>
        rw [tokenize_mark_of_error hmark ha hdangling hb] at hvs
        cases hvs
  · rintro ⟨us, hb⟩
    exact ⟨_, tokenize_mark_of_ok hmark ha hdangling hb⟩
  · intro us hb
    refine ⟨_, tokenize_mark_of_ok hmark ha hdangling hb, ?_⟩
    simp [record, within, Location.within, Location.start, Function.comp_def]
  · intro e hb
    refine ⟨_, tokenize_mark_of_error hmark ha hdangling hb, rfl, ?_, ?_⟩
    · simp [Location.within, Location.start]
    · obtain ⟨front, rest, rfl, hfront⟩ := exists_front_of_error hb
      -- an error is placed behind the front of the second text, and so behind a front of the whole
      have htake : (a ++ c :: (front ++ rest)).take (a.length + 1 + e.loc.offset) =
          a ++ [c] ++ front := by
        rw [show a ++ c :: (front ++ rest) = a ++ [c] ++ front ++ rest by simp]
        refine List.take_left' ?_
        simp only [hfront, Location.offset_after, Location.start, List.length_append,
          List.length_singleton]
        omega
      rw [htake, hfront, ← Location.within_after (by decide), Location.within_start,
        ← Location.after_append]

/-- A unit that a plus sign and a digit would make an exponent, in front of a comma with these
behind it, and a string behind the comma that has no end. -/
theorem tokenize_append_mark_exponent :
    (∃ vs, tokenize "1e,+3/**/x" = .ok vs ∧
        vs.map record = ([(.dimension, "1e", 0), (.comma, ",", 2), (.number, "+3", 3),
          (.whitespace, " ", 5), (.ident, "x", 9), (.eof, [], 10)] : List (Kind × Text × Nat))) ∧
      ∃ e, tokenize "1e,\n'" = .error e ∧ e.fault = .unterminatedString ∧ e.loc = ⟨4, 2, 1⟩ := by
  have ha : tokenize "1e" = .ok [⟨.dimension, "1e", .start⟩, ⟨.eof, [], ⟨2, 1, 3⟩⟩] :=
    tokenize_eq_ok_iff.2 (by decide +kernel)
  have hmark := fun b => tokenize_append_mark "1e" b ',' _ (by simp) ha (by simp)
  refine ⟨?_, ?_⟩
  · obtain ⟨vs, hvs, hrecord⟩ := (hmark "+3/**/x").2.1
      [⟨.number, "+3", .start⟩, ⟨.whitespace, " ", ⟨2, 1, 3⟩⟩, ⟨.ident, "x", ⟨6, 1, 7⟩⟩,
        ⟨.eof, [], ⟨7, 1, 8⟩⟩] (tokenize_eq_ok_iff.2 (by decide +kernel))
    exact ⟨vs, hvs, hrecord⟩
  · have hcut : cut "\n'" = ⟨[.blanks "\n"], some (.unterminatedString, "'")⟩ := by decide +kernel
    have hb : tokenize "\n'" = .error ⟨.unterminatedString, ⟨1, 2, 1⟩⟩ := by
      rw [tokenize, hcut]
      rfl
    obtain ⟨e, he, hfault, -, hloc⟩ := (hmark "\n'").2.2 _ hb
    exact ⟨e, he, hfault, hloc⟩

end Token

end CssHints
