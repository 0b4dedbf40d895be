import CssHints.Proofs.Align
import CssHints.Proofs.Meaning

/-!
# `CssHints.Proofs.Concatenation`: two sources one after the other

A stylesheet ends with a closing brace or a semicolon, apart from blanks and comments. So nothing of
it runs into a source that stands behind it: the pieces of the two are those of each, except that
blanks meet and become one piece (`cut_trail`). The tokens are therefore those of each, except that
a gap at the start of the second source may be missing (`tokens_append`), and gaps between
nodes count for nothing. The parser then reads the second source as it does alone, with the nodes
of the first in front (`ofSource_append_iff`), and everything that a run computes is a sum or a
concatenation over the nodes (`accelerate_append`).
-/

set_option autoImplicit false

namespace CssHints.Token

/-! ### Tokens of a list of pieces -/

/-- Places do not decide which tokens there are: the pieces and the class of the token before them
do. -/
theorem map_unplaced_ofPieces_loc (last : Option Kind) (loc loc' : Location) (ps : List Piece) :
    (ofPieces last loc ps).map unplaced = (ofPieces last loc' ps).map unplaced := by
  induction ps generalizing last loc loc' with
  | nil => rfl
  | cons p ps ih =>
      cases p with
      | blanks w =>
          simp only [ofPieces]
          split
          · exact ih _ _ _
          · exact congrArg (unplaced (space loc) :: ·) (ih _ _ _)
      | comment w =>
          simp only [ofPieces]
          split
          · exact congrArg (unplaced (space loc) :: ·) (ih _ _ _)
          · exact ih _ _ _
      | lexeme k w => exact congrArg (unplaced ⟨k, w, loc⟩ :: ·) (ih _ _ _)

/-- The tokens of pieces behind a token of class `last`, at no particular place. -/
def bare (last : Option Kind) (ps : List Piece) : List Token :=
  (ofPieces last .start ps).map unplaced

/-- No pieces, no tokens. -/
@[simp] theorem bare_nil (last : Option Kind) : bare last [] = [] := rfl

/-- Blanks are a gap, unless a gap stands right before them. -/
theorem bare_blanks (last : Option Kind) (w : Text) (ps : List Piece) :
    bare last (.blanks w :: ps) =
      if last = some .whitespace then bare last ps
      else space .start :: bare (some .whitespace) ps := by
  rw [bare, ofPieces]
  split
  · exact map_unplaced_ofPieces_loc _ _ _ _
  · exact congrArg (space .start :: ·) (map_unplaced_ofPieces_loc _ _ _ _)

/-- A comment is a gap only where it stands between two tokens that would otherwise become one. -/
theorem bare_comment (last : Option Kind) (w : Text) (ps : List Piece) :
    bare last (.comment w :: ps) =
      if joins last ps then space .start :: bare (some .whitespace) ps else bare last ps := by
  rw [bare, ofPieces]
  split
  · exact congrArg (space .start :: ·) (map_unplaced_ofPieces_loc _ _ _ _)
  · exact map_unplaced_ofPieces_loc _ _ _ _

/-- A lexeme is a token, and what follows is read behind its class. -/
@[simp] theorem bare_lexeme (last : Option Kind) (k : Kind) (w : Text) (ps : List Piece) :
    bare last (.lexeme k w :: ps) = ⟨k, w, .start⟩ :: bare (some k) ps := by
  rw [bare, ofPieces, List.map_cons, map_unplaced_ofPieces_loc _ _ .start]
  rfl

/-- The tokens of a source without their places are those of its pieces. -/
theorem words_map_unplaced_bare {s : Text} {ts : List Token} (h : words s = some ts) :
    ts.map unplaced = bare none (cut s).pieces := by
  obtain ⟨-, rfl⟩ := words_eq_some_iff.1 h
  rfl

/-- The tokens of pieces around a lexeme are those up to it and those behind it: whatever stands
before the lexeme, what stands behind it only sees the lexeme. -/
theorem bare_append_lexeme (last : Option Kind) (ps : List Piece) (k : Kind) (w : Text)
    (qs : List Piece) :
    bare last (ps ++ .lexeme k w :: qs) = bare last (ps ++ [.lexeme k w]) ++ bare (some k) qs := by
  induction ps generalizing last with
  | nil => simp
  | cons p ps ih =>
      -- a comment looks at the piece behind it only, which is the same in both
      have hjoins : joins last (ps ++ .lexeme k w :: qs) = joins last (ps ++ [.lexeme k w]) := by
        cases last <;> cases ps <;> rfl
      cases p with
      | blanks v =>
          simp only [List.cons_append, bare_blanks]
          split <;> simp [ih]
      | comment v =>
          simp only [List.cons_append, bare_comment, hjoins]
          split <;> simp [ih]
      | lexeme k' v => simp [ih]

/-- The lexeme that pieces end with is their last token, because only gaps can be left out. Whether
a gap is left out depends on the class of the token before it, hence the statement for every
`last`. -/
theorem exists_bare_append_lexeme (last : Option Kind) (ps : List Piece) (k : Kind) (w : Text) :
    ∃ ts, bare last (ps ++ [.lexeme k w]) = ts ++ [⟨k, w, .start⟩] := by
  induction ps generalizing last with
  | nil => exact ⟨[], by simp⟩
  | cons p ps ih =>
      -- a gap leaves a token or none, and the class before the next piece accordingly
      obtain ⟨ts, hts⟩ := ih last
      obtain ⟨us, hus⟩ := ih (some .whitespace)
      cases p with
      | blanks v =>
          rw [List.cons_append, bare_blanks]
          split
          · exact ⟨ts, hts⟩
          · exact ⟨space .start :: us, by rw [hus]; rfl⟩
      | comment v =>
          rw [List.cons_append, bare_comment]
          split
          · exact ⟨space .start :: us, by rw [hus]; rfl⟩
          · exact ⟨ts, hts⟩
      | lexeme k' v =>
          obtain ⟨vs, hvs⟩ := ih (some k')
          exact ⟨⟨k', v, .start⟩ :: vs, by rw [List.cons_append, bare_lexeme, hvs]; rfl⟩

/-! ### Pieces behind the last lexeme -/

/-- The piece is a run of blanks or a comment. -/
def Piece.isGap : Piece → Bool
  | .blanks _ => true
  | .comment _ => true
  | .lexeme _ _ => false

/-- Every list of pieces ends with a trail of gaps, which may be empty, and a lexeme stands before
the trail if anything does. -/
theorem exists_trail (ps : List Piece) :
    ∃ front trail, ps = front ++ trail ∧ (∀ p ∈ trail, p.isGap = true) ∧
      (front = [] ∨ ∃ qs k w, front = qs ++ [.lexeme k w]) := by
  induction ps with
  | nil => exact ⟨[], [], rfl, by simp, .inl rfl⟩
  | cons p ps ih =>
      obtain ⟨front, trail, rfl, htrail, rfl | ⟨qs, k, w, rfl⟩⟩ := ih
      · -- all further pieces are gaps, so this piece decides whether there is a lexeme
        cases hp : p.isGap with
        | true => exact ⟨[], p :: trail, rfl, by simpa [hp] using htrail, .inl rfl⟩
        | false =>
            obtain ⟨k, w, rfl⟩ : ∃ k w, p = .lexeme k w := by
              cases p with
              | lexeme k w => exact ⟨k, w, rfl⟩
              | blanks w => cases hp
              | comment w => cases hp
            exact ⟨[.lexeme k w], trail, rfl, htrail, .inr ⟨[], k, w, rfl⟩⟩
      · exact ⟨p :: (qs ++ [.lexeme k w]), trail, rfl, htrail, .inr ⟨p :: qs, k, w, rfl⟩⟩

/-- The tokens of a trail are gaps. -/
theorem kind_of_mem_bare_trail {trail : List Piece} (htrail : ∀ p ∈ trail, p.isGap = true)
    {last : Option Kind} {t : Token} (ht : t ∈ bare last trail) : t.kind = .whitespace := by
  obtain ⟨u, hu, rfl⟩ := List.mem_map.1 ht
  rcases mem_ofPieces hu with ⟨loc, rfl⟩ | ⟨loc, k, v, rfl, hmem⟩
  · rfl
  · exact absurd (htrail _ hmem) (by simp [Piece.isGap])

/-! ### A source behind blanks and comments -/

/-- A token of the class takes nothing in that follows it. -/
def Inert (last : Option Kind) : Prop := ∀ k ∈ last, k.isWord = false

/-- Behind a class that takes nothing in, no comment is a gap, because there is no token that it
keeps from growing. -/
theorem joins_of_inert {last : Option Kind} (h : Inert last) (ps : List Piece) :
    joins last ps = false := by
  cases last with
  | none => rfl
  | some k =>
      have hk := h k rfl
      have hnumber : k ≠ .number := by
        rintro rfl
        exact absurd hk (by decide)
      cases ps <;> simp [joins, hk, hnumber]

/-- The tokens `us` are `ts`, or `ts` without the gap at their start. -/
def Sheds (ts us : List Token) : Prop := ts = us ∨ ts = space .start :: us

/-- Behind a token that takes nothing in, a source keeps its tokens, apart from a gap that is there
already. -/
theorem sheds_bare {last : Option Kind} (h : Inert last) (ps : List Piece) :
    Sheds (bare none ps) (bare last ps) := by
  induction ps with
  | nil => exact .inl rfl
  | cons p ps ih =>
      cases p with
      -- only here the class of the last token counts: behind a space these blanks leave no second
      -- one
      | blanks w =>
          rw [bare_blanks, bare_blanks, if_neg (by simp)]
          split
          · rename_i hlast
            rw [hlast]
            exact .inr rfl
          · exact .inl rfl
      | comment w =>
          rw [bare_comment, bare_comment, joins_of_inert h, joins_of_inert (by simp [Inert])]
          exact ih
      | lexeme k w =>
          rw [bare_lexeme, bare_lexeme]
          exact .inl rfl

/-- The tokens of a source whose leading blanks are taken off are its own, apart from a gap at their
start, and both get stuck at the same fault. -/
theorem sheds_dropWhile (y : Text) :
    (cut (y.dropWhile isBlank)).stuck = (cut y).stuck ∧
      Sheds (bare none (cut y).pieces)
        (bare (some .whitespace) (cut (y.dropWhile isBlank)).pieces) := by
  have hinert : Inert (some .whitespace) := by simp [Inert, Kind.isWord]
  cases y with
  | nil => exact ⟨rfl, sheds_bare hinert _⟩
  | cons c y =>
      cases hc : isBlank c with
      | false =>
          rw [List.dropWhile_cons_of_neg (by simp [hc])]
          exact ⟨rfl, sheds_bare hinert _⟩
      | true =>
          -- the blanks that are dropped are part of the first piece, which is a gap
          have hnext := next_blanks_append (s := []) hc (by simp) y
          rw [List.nil_append] at hnext
          rw [List.dropWhile_cons_of_pos hc, cut_cons_of_next hnext, bare_blanks,
            if_neg (by simp)]
          exact ⟨rfl, .inr rfl⟩

/-- A comment ends in itself, so it is the same piece whatever follows. -/
theorem next_comment_append {c : Char} {s rest v : Text}
    (h : next c s = .ok (.comment v, rest)) (y : Text) :
    next c (s ++ y) = .ok (.comment v, rest ++ y) := by
  obtain ⟨rfl, t, body, rfl, rfl, hbody⟩ := of_next_comment h
  exact next_of_takeComment (takeComment_append_right y hbody)

/-- **A source behind a trail.** Blanks and comments at the end of a text change nothing in what
follows, apart from a gap at its start. The induction is on the pieces of the trail: a comment ends
in itself, and blanks either end before the next piece of the trail or run into the source. -/
theorem cut_trail {w : Text} {trail : List Piece} (hcut : cut w = ⟨trail, none⟩)
    (htrail : ∀ p ∈ trail, p.isGap = true) {last : Option Kind} (hlast : Inert last) (y : Text) :
    (cut (w ++ y)).stuck = (cut y).stuck ∧
      ∃ us, bare last (cut (w ++ y)).pieces = bare last trail ++ us ∧
        Sheds (bare none (cut y).pieces) us := by
  induction trail generalizing w last with
  | nil =>
      have happ := cut_append w
      rw [hcut] at happ
      obtain rfl : [] = w := happ
      exact ⟨rfl, _, rfl, sheds_bare hlast _⟩
  | cons p trail ih =>
      have htail : ∀ q ∈ trail, q.isGap = true := fun q hq => htrail q (List.mem_cons_of_mem _ hq)
      obtain ⟨c, s, rest, rfl, hnext, hrest⟩ := exists_next_of_cut (s := w) (by rw [hcut])
      rw [hcut] at hrest
      cases p with
      | comment v =>
          obtain ⟨hstuck, us, hus, hsheds⟩ := ih hrest htail hlast
          rw [List.cons_append, cut_cons_of_next (next_comment_append hnext y), bare_comment,
            bare_comment, joins_of_inert hlast, joins_of_inert hlast]
          exact ⟨hstuck, us, hus, hsheds⟩
      | blanks v =>
          obtain ⟨s, rfl, rfl, hblank, hhead⟩ := blanks_of_next hnext
          have hspace : Inert (some .whitespace) := by simp [Inert, Kind.isWord]
          have hmore := next_blanks_append (hblank c List.mem_cons_self)
            (fun x hx => hblank x (List.mem_cons_of_mem _ hx)) (rest ++ y)
          rw [List.cons_append, List.append_assoc, cut_cons_of_next hmore, bare_blanks, bare_blanks]
          cases rest with
          | nil =>
              -- the blanks are the last piece and run into the source
              rw [cut_nil] at hrest
              obtain rfl : [] = trail := congrArg Cut.pieces hrest
              obtain ⟨hstuck, hsheds⟩ := sheds_dropWhile y
              refine ⟨hstuck, _, ?_, hsheds⟩
              split
              · rename_i hlast
                rw [hlast]
                rfl
              · rfl
          | cons d rest =>
              -- the trail goes on with a piece that is not blank, so the blanks end there
              have hdrop : (d :: rest ++ y).dropWhile isBlank = d :: rest ++ y :=
                List.dropWhile_cons_of_neg (by simp [hhead d rfl])
              rw [hdrop]
              obtain ⟨hstuck, us, hus, hsheds⟩ := ih hrest htail hspace
              refine ⟨hstuck, us, ?_, hsheds⟩
              split
              · rename_i hlast
                rw [hlast]
                exact hus
              · exact congrArg (space .start :: ·) hus
      | lexeme k v => exact absurd (htrail _ List.mem_cons_self) (by simp [Piece.isGap])

/-! ### A source behind a mark and a trail -/

/-- Only the closing brace has the class of closing braces. -/
theorem ofChar_eq_rbrace {c : Char} (h : Kind.ofChar c = .rbrace) : c = '\x7d' := by
  unfold Kind.ofChar at h
  split at h <;> first | rfl | cases h

/-- Only the semicolon has the class of semicolons. -/
theorem ofChar_eq_semicolon {c : Char} (h : Kind.ofChar c = .semicolon) : c = ';' := by
  unfold Kind.ofChar at h
  split at h <;> first | rfl | cases h

/-- The tokens end with a closing brace or a semicolon, apart from gaps behind it. -/
def Ends (ts : List Token) : Prop :=
  ∀ t ∈ (ts.filter (·.kind ≠ .whitespace)).getLast?, t.kind = .rbrace ∨ t.kind = .semicolon

/-- What tokens end with does not depend on their places. -/
theorem ends_map_unplaced {ts : List Token} : Ends (ts.map unplaced) ↔ Ends ts := by
  have hfilter : (ts.map unplaced).filter (·.kind ≠ .whitespace)
      = (ts.filter (·.kind ≠ .whitespace)).map unplaced := List.filter_map
  rw [Ends, Ends, hfilter, List.getLast?_map]
  cases (ts.filter (·.kind ≠ .whitespace)).getLast? <;> simp

/-- A lexeme with the class of a closing brace or of a semicolon is that single character, and the
character is a mark. -/
theorem mark_of_mem_cut {s w : Text} {k : Kind} (h : Piece.lexeme k w ∈ (cut s).pieces)
    (hk : k = .rbrace ∨ k = .semicolon) : ∃ d, w = [d] ∧ k = .ofChar d ∧ isMark d = true := by
  obtain ⟨c, t, rest, hnext⟩ := next_of_mem_cut h
  rcases lexeme_of_next hnext with ⟨rfl, rfl⟩ | hlong
  · refine ⟨c, rfl, rfl, ?_⟩
    rcases hk with hk | hk
    · rw [ofChar_eq_rbrace hk]
      decide
    · rw [ofChar_eq_semicolon hk]
      decide
  · rcases hk with rfl | rfl <;> exact absurd hlong (by decide)

/-- The last lexeme of a text is its last token that is no gap, so it is what the tokens end
with. -/
theorem kind_of_ends {s w : Text} {ts : List Token} {ps trail : List Piece} {k : Kind}
    (hts : Ends ts) (hbare : ts.map unplaced = bare none (cut s).pieces)
    (hpieces : (cut s).pieces = ps ++ .lexeme k w :: trail)
    (htrail : ∀ p ∈ trail, p.isGap = true) : k = .rbrace ∨ k = .semicolon := by
  have hk : k ≠ .whitespace := (kind_of_mem_cut (s := s) (t := w) (by rw [hpieces]; simp)).1
  obtain ⟨us, hus⟩ := exists_bare_append_lexeme none ps k w
  rw [hpieces, bare_append_lexeme, hus] at hbare
  -- the trail leaves gaps only, which the filter drops
  have hgaps : (bare (some k) trail).filter (·.kind ≠ .whitespace) = [] := by
    rw [List.filter_eq_nil_iff]
    intro t ht
    simp [kind_of_mem_bare_trail htrail ht]
  rw [← ends_map_unplaced, Ends, hbare, List.filter_append, hgaps, List.append_nil,
    List.filter_append] at hts
  exact hts ⟨k, w, .start⟩ (by simp [hk])

/-- **The tokens of two sources.** If the tokens of the first one end with a closing brace or a
semicolon, the tokens of both together are those of the first and those of the second, apart from a
gap at the start of the second. -/
theorem tokens_append {s : Text} {ts : List Token} (hs : words s = some ts) (hts : Ends ts)
    (y : Text) :
    (cut (s ++ y)).stuck = (cut y).stuck ∧
      ∃ us, bare none (cut (s ++ y)).pieces = ts.map unplaced ++ us ∧
        Sheds (bare none (cut y).pieces) us := by
  have hstuck := (words_eq_some_iff.1 hs).1
  have hbare := words_map_unplaced_bare hs
  obtain ⟨front, trail, hpieces, htrail, hfront⟩ := exists_trail (cut s).pieces
  obtain ⟨w, hw, hcut⟩ := exists_cut_of_append hpieces
  rw [hstuck] at hcut
  rcases hfront with rfl | ⟨ps, k, v, rfl⟩
  · -- there are only blanks and comments
    obtain rfl : s = w := hw
    rw [hbare, hpieces]
    exact cut_trail hcut htrail (by simp [Inert]) y
  · rw [List.append_assoc, List.singleton_append] at hpieces
    have hmem : Piece.lexeme k v ∈ (cut s).pieces := by
      rw [hpieces]
      exact List.mem_append_right _ List.mem_cons_self
    -- the last lexeme is a mark, so it seals what stands before it
    obtain ⟨d, rfl, rfl, hd⟩ := mark_of_mem_cut hmem (kind_of_ends hts hbare hpieces htrail)
    have htext : s = ps.flatMap Piece.text ++ d :: w := by simpa [Piece.text] using hw
    obtain ⟨hps, hdangling⟩ := cut_of_append_separator (isSeparator_of_isMark hd)
      (isBlank_of_isMark hd) (isQuote_of_isMark hd) (htext ▸ hpieces) rfl
    have hsolid : Solid (ps.flatMap Piece.text) := ⟨by rw [hps], hdangling⟩
    have hsealed := hsolid.mark hd (w ++ y)
    rw [hps, List.append_assoc, List.singleton_append, List.append_assoc,
      List.singleton_append] at hsealed
    have hinert : Inert (some (Kind.ofChar d)) := by
      rcases kind_of_ends hts hbare hpieces htrail with hk | hk <;> simp [Inert, Kind.isWord, hk]
    obtain ⟨hstuck, us, hus, hsheds⟩ := cut_trail hcut htrail hinert y
    rw [htext, List.append_assoc, List.cons_append, hsealed]
    refine ⟨hstuck, us, ?_, hsheds⟩
    rw [hbare, hpieces, bare_append_lexeme none ps _ _ trail, List.append_assoc, ← hus]
    exact bare_append_lexeme none ps _ _ _

end CssHints.Token

namespace CssHints.Grammar

open Token (Ends Sheds)

/-! ### The grammar of two lists -/

/-- Tokens end with a closing brace or a semicolon if they have one and what stands behind it ends
so too, or holds gaps only. -/
theorem ends_append_cons {ts us : List Token} {t : Token}
    (ht : t.kind = .rbrace ∨ t.kind = .semicolon) (hus : Ends us) : Ends (ts ++ t :: us) := by
  have hk : t.kind ≠ .whitespace := by
    rcases ht with ht | ht <;> simp [ht]
  intro u hu
  rw [List.filter_append, List.filter_cons_of_pos (by simpa using hk), List.getLast?_append,
    List.getLast?_cons] at hu
  cases hlast : (us.filter (·.kind ≠ .whitespace)).getLast? with
  | none =>
      rw [hlast] at hu
      obtain rfl : t = u := by simpa using hu
      exact ht
  | some v =>
      rw [hlast] at hu
      obtain rfl : v = u := by simpa using hu
      exact hus v hlast

/-- The tokens of a list of rules end with a closing brace or a semicolon, apart from gaps: every
rule and every at-rule does. -/
theorem RuleList.ends {d : Nat} {ts : List Token} {ns : List Node} (h : RuleList d ts ns) :
    Ends ts := by
  induction h with
  | nil => simp [Ends]
  | gap hgap _ ih =>
      rcases hgap with hgap | hgap
      · simpa [Ends, hgap] using ih
      · rw [← List.nil_append (_ :: _)]
        exact ends_append_cons (.inr hgap) ih
  | rule _ _ _ _ _ hrb _ ih =>
      -- what stands before the closing brace does not matter
      rw [← List.cons_append, ← List.append_assoc]
      exact ends_append_cons (.inl hrb) ih
  | statement _ _ _ hsemi _ ih =>
      rw [← List.cons_append]
      exact ends_append_cons (.inr hsemi) ih
  | ruleBlock _ _ _ _ _ _ hrb _ _ ih =>
      rw [← List.cons_append, ← List.cons_append, ← List.append_assoc]
      exact ends_append_cons (.inl hrb) ih
  | declBlock _ _ _ _ _ hrb _ ih =>
      rw [← List.cons_append, ← List.cons_append, ← List.append_assoc]
      exact ends_append_cons (.inl hrb) ih

/-- The grammar is what the machine accepts from its first state, whatever token it is given for the
end of the source. -/
theorem ruleList_iff_run (eof : Token) {ts : List Token} (hts : ∀ t ∈ ts, t.kind ≠ .eof)
    {sheet : Stylesheet} :
    RuleList 0 ts sheet ↔ (Parser.run eof {} ts).result = .ok sheet := by
  constructor
  · intro h
    obtain ⟨dr, hrun⟩ := run_ruleList eof h {} rfl rfl []
    rw [List.append_nil] at hrun
    rw [hrun, Parser.run]
    rfl
  · intro h
    obtain ⟨ns, hns, rfl⟩ : ∃ ns, RuleList 0 ts ns ∧ sheet = [] ++ ns := completes_of_run hts h
    exact hns

/-- Two lists of rules in a row are a list of rules, with the nodes of both. No item of the grammar
looks beyond its own end, so the first derivation is kept as it is. -/
theorem RuleList.append {d : Nat} {ts us : List Token} {ns ms : List Node} (h : RuleList d ts ns)
    (hus : RuleList d us ms) : RuleList d (ts ++ us) (ns ++ ms) := by
  induction h with
  | nil => exact hus
  | gap hgap _ ih => exact .gap hgap (ih hus)
  | rule hpre hhead hselectors hlb hbody hrb _ ih =>
      simpa using RuleList.rule hpre hhead hselectors hlb hbody hrb (ih hus)
  | statement hk hbase hpre hsemi _ ih =>
      simpa using RuleList.statement hk hbase hpre hsemi (ih hus)
  | ruleBlock hk hbase hd hpre hlb hbody hrb _ _ ih =>
      simpa using RuleList.ruleBlock hk hbase hd hpre hlb hbody hrb (ih hus)
  | declBlock hk hbase hpre hlb hbody hrb _ ih =>
      simpa using RuleList.declBlock hk hbase hpre hlb hbody hrb (ih hus)

/-- A list of rules and what stands behind it are a list of rules if the latter is one. The machine
is behind the first list when it comes to the second, and what it accepts there is a list of its
own. -/
theorem ruleList_append_iff {ts us : List Token} (hts : ∀ t ∈ ts, t.kind ≠ .eof)
    (hus : ∀ t ∈ us, t.kind ≠ .eof) {ns sheet : List Node} (h : RuleList 0 ts ns) :
    RuleList 0 (ts ++ us) sheet ↔ ∃ ms, RuleList 0 us ms ∧ sheet = ns ++ ms := by
  constructor
  · intro hall
    let eof : Token := ⟨.eof, [], .start⟩
    have hno : ∀ t ∈ ts ++ us, t.kind ≠ .eof := by
      intro t ht
      rcases List.mem_append.1 ht with ht | ht
      · exact hts t ht
      · exact hus t ht
    -- the parser reads the front, and comes back to its first state; what it does from there on it
    -- does on the rest alone
    have haccept := (ruleList_iff_run eof hno).1 hall
    obtain ⟨dr, hrun⟩ := run_ruleList eof h {} rfl rfl us
    rw [hrun] at haccept
    exact completes_of_run hus haccept
  · rintro ⟨ms, hms, rfl⟩
    exact h.append hms

/-- A gap in front of a list of rules counts for nothing, so shedding it does not change what is
derived. -/
theorem ruleList_of_sheds {ts us : List Token} (h : Sheds ts us) (hus : ∀ t ∈ us, t.kind ≠ .eof)
    (sheet : Stylesheet) : RuleList 0 us sheet ↔ RuleList 0 ts sheet := by
  rcases h with rfl | rfl
  · exact Iff.rfl
  · let eof : Token := ⟨.eof, [], .start⟩
    have hno : ∀ t ∈ Token.space .start :: us, t.kind ≠ .eof := by
      intro t ht
      rcases List.mem_cons.1 ht with rfl | ht
      · decide
      · exact hus t ht
    rw [ruleList_iff_run eof hus, ruleList_iff_run eof hno, run_cons_of_step (step_gap (.inl rfl))]

end CssHints.Grammar

namespace CssHints

open Token (bare cut unplaced words words_eq_some_iff)
open Grammar (RuleList)

/-! ### The tree of two sources -/

/-- No token of a text is the end of the source. -/
theorem kind_ne_eof_of_mem_bare {s : Text} {last : Option Kind} {t : Token}
    (h : t ∈ bare last (cut s).pieces) : t.kind ≠ .eof := by
  obtain ⟨u, hu, rfl⟩ := List.mem_map.1 h
  rcases Token.mem_ofPieces hu with ⟨loc, rfl⟩ | ⟨loc, k, v, rfl, hmem⟩
  · simp [Token.space]
  · exact (Token.kind_of_mem_cut hmem).2

/-- A source gives a tree if it can be cut into pieces and its tokens, at no particular place,
derive the tree. -/
theorem ofSource_eq_ok_iff_bare {s : Text} {sheet : Stylesheet} :
    Stylesheet.ofSource s = .ok sheet ↔
      (cut s).stuck = none ∧ RuleList 0 (bare none (cut s).pieces) sheet := by
  rw [ofSource_eq_ok_iff]
  constructor
  · rintro ⟨ts, hwords, hlist⟩
    rw [← Token.words_map_unplaced_bare hwords]
    exact ⟨(words_eq_some_iff.1 hwords).1, hlist.map_unplaced⟩
  · rintro ⟨hstuck, hlist⟩
    exact ⟨_, words_eq_some_iff.2 ⟨hstuck, rfl⟩, hlist.of_unplaced rfl⟩

/-- Behind a stylesheet a source is read as it is alone, with more nodes in front. The stylesheet
ends with a mark, so the tokens of the two do not mix, and the machine is between two rules where
the second source starts. -/
theorem ofSource_append_iff {s : Text} {front : Stylesheet}
    (hs : Stylesheet.ofSource s = .ok front) (y : Text) (sheet : Stylesheet) :
    Stylesheet.ofSource (s ++ y) = .ok sheet ↔
      ∃ back, Stylesheet.ofSource y = .ok back ∧ sheet = front ++ back := by
  obtain ⟨ts, hts, hlist⟩ := ofSource_eq_ok_iff.1 hs
  obtain ⟨hstuck, us, hus, hsheds⟩ := Token.tokens_append hts hlist.ends y
  -- no end of the source stands among the tokens, so the grammar and the machine agree on them
  have hall : ∀ t ∈ ts.map unplaced ++ us, t.kind ≠ .eof := by
    rw [← hus]
    exact fun t ht => kind_ne_eof_of_mem_bare ht
  have htail : ∀ t ∈ us, t.kind ≠ .eof := fun t ht => hall t (List.mem_append_right _ ht)
  simp only [ofSource_eq_ok_iff_bare, hstuck, hus]
  rw [Grammar.ruleList_append_iff (fun t ht => hall t (List.mem_append_left _ ht)) htail
    hlist.map_unplaced]
  simp only [Grammar.ruleList_of_sheds hsheds htail]
  constructor
  · rintro ⟨hcut, back, hback, rfl⟩
    exact ⟨back, ⟨hcut, hback⟩, rfl⟩
  · rintro ⟨back, ⟨hcut, hback⟩, rfl⟩
    exact ⟨hcut, back, hback, rfl⟩

/-! ### A run on two sources -/

/-- Changing the rules of two trees in a row is changing those of each. -/
theorem Stylesheet.mapRules_append (f : Rule → Rule) (ns ms : List Node) :
    Stylesheet.mapRules f (ns ++ ms) = Stylesheet.mapRules f ns ++ Stylesheet.mapRules f ms := by
  induction ns with
  | nil => rfl
  | cons n ns ih => exact congrArg (n.mapRules f :: ·) ih

/-- The rules of two trees in a row are those of the first and then those of the second, below the
same at-rules. -/
theorem Stylesheet.walkBelow_append (parents : List AtHead) (ns ms : List Node) :
    Stylesheet.walkBelow parents (ns ++ ms)
      = Stylesheet.walkBelow parents ns ++ Stylesheet.walkBelow parents ms := by
  induction ns with
  | nil => rfl
  | cons n ns ih => rw [List.cons_append, walkBelow, walkBelow, ih, List.append_assoc]

/-- The rules of two stylesheets in a row are those of the first and then those of the second. -/
theorem Stylesheet.rules_append (ns ms : Stylesheet) :
    Stylesheet.rules (ns ++ ms) = ns.rules ++ ms.rules := by
  rw [rules, walk, walkBelow_append, List.map_append]
  rfl

/-- The written lines of two trees in a row are those of the first and then those of the second. -/
theorem Stylesheet.lines_append (layout : Layout) (depth : Nat) (ns ms : List Node) :
    Stylesheet.lines layout depth (ns ++ ms)
      = Stylesheet.lines layout depth ns ++ Stylesheet.lines layout depth ms := by
  induction ns with
  | nil => rfl
  | cons n ns ih => rw [List.cons_append, lines, lines, ih, List.append_assoc]

/-- The written form of two stylesheets in a row is that of the first and then that of the second,
in either layout: each line belongs to one node, and nothing stands between the nodes. -/
theorem Stylesheet.render_append (layout : Layout) (ns ms : Stylesheet) :
    Stylesheet.render (ns ++ ms) layout = ns.render layout ++ ms.render layout := by
  cases layout with
  | spaced => simp only [render, lines_append, List.flatMap_append]
  | compact => simp only [render, lines_append, List.flatten_append]

/-- The transforms see each rule for itself, so for two stylesheets in a row the trees follow each
other and the counts of changed rules add up. -/
theorem Stylesheet.transform_append (c : Config) (more : List Transform) (ns ms : Stylesheet) :
    Stylesheet.transform (ns ++ ms) c more
      = ((ns.transform c more).1 ++ (ms.transform c more).1,
          (ns.transform c more).2 + (ms.transform c more).2) := by
  simp only [transform, mapRules_append, rules_append, List.filter_append, List.length_append]

/-- A run has no failure if and only if the source is a stylesheet; neither the settings nor the
layout nor the transforms can make it fail. -/
theorem failure_eq_none_iff (source : Text) (c : Config) (layout : Layout)
    (more : List Transform) :
    (accelerate source c layout more).failure = none ↔
      ∃ sheet, Stylesheet.ofSource source = .ok sheet := by
  cases h : Stylesheet.ofSource source with
  | error e =>
      obtain ⟨notices, hrun⟩ := accelerate_of_error h c layout more
      simp [hrun]
  | ok sheet => simp [(accelerate_of_ok h c layout more).1]

/-- **A run on two sources.** Behind a stylesheet, a source fails if and only if it fails alone. If
it does not, the tree and the output of both together are those of the first followed by those of
the second, and the counts are the sums. -/
theorem accelerate_append {first : Text} {front : Stylesheet}
    (hfirst : Stylesheet.ofSource first = .ok front) (second : Text) (c : Config)
    (layout : Layout) (more : List Transform) :
    ((accelerate (first ++ second) c layout more).failure = none ↔
        (accelerate second c layout more).failure = none) ∧
      ∀ back, Stylesheet.ofSource second = .ok back →
        Stylesheet.ofSource (first ++ second) = .ok (front ++ back) ∧
          (accelerate (first ++ second) c layout more).output
            = (accelerate first c layout more).output ++ (accelerate second c layout more).output ∧
          (accelerate (first ++ second) c layout more).total
            = (accelerate first c layout more).total + (accelerate second c layout more).total ∧
          (accelerate (first ++ second) c layout more).eligible
            = (accelerate first c layout more).eligible
              + (accelerate second c layout more).eligible ∧
          (accelerate (first ++ second) c layout more).changed
            = (accelerate first c layout more).changed
              + (accelerate second c layout more).changed := by
  refine ⟨?_, ?_⟩
  · simp only [failure_eq_none_iff, ofSource_append_iff hfirst]
    constructor
    · rintro ⟨-, back, hback, -⟩
      exact ⟨back, hback⟩
    · rintro ⟨back, hback⟩
      exact ⟨front ++ back, back, hback, rfl⟩
  · -- all that a run gives is a sum or a concatenation over the nodes
    intro back hback
    have hboth := (ofSource_append_iff hfirst second (front ++ back)).2 ⟨back, hback, rfl⟩
    obtain ⟨htotal, heligible, hchanged⟩ := accelerate_counts_of_ok hboth c layout more
    obtain ⟨htotal₁, heligible₁, hchanged₁⟩ := accelerate_counts_of_ok hfirst c layout more
    obtain ⟨htotal₂, heligible₂, hchanged₂⟩ := accelerate_counts_of_ok hback c layout more
    refine ⟨hboth, ?_, ?_, ?_, ?_⟩
    · rw [(accelerate_of_ok hboth c layout more).2, (accelerate_of_ok hfirst c layout more).2,
        (accelerate_of_ok hback c layout more).2, Stylesheet.transform_append,
        Stylesheet.render_append]
    · rw [htotal, htotal₁, htotal₂, Stylesheet.rules_append, List.length_append]
    · rw [heligible, heligible₁, heligible₂, Stylesheet.rules_append, List.filter_append,
        List.length_append]
    · rw [hchanged, hchanged₁, hchanged₂, Stylesheet.transform_append]

/-- Settings with one hint. -/
def oneHint : Config := { willChange := false, backface := false, perspective := false }

/-- A rule that takes the hint, with a comment behind it, and a rule that takes none, with blanks
and a comment in front of it. The first source ends between the two comments, and neither of them
shows in the result. -/
theorem accelerate_append_comment :
    Stylesheet.ofSource ("a\x7btransition:b\x7d /*c*/ ".toList ++ "\n/*g*/ d\x7be:f\x7d".toList)
        = .ok [.rule ⟨["a"], [⟨"transition", "b", false⟩]⟩, .rule ⟨["d"], [⟨"e", "f", false⟩]⟩] ∧
      (accelerate ("a\x7btransition:b\x7d /*c*/ ".toList ++ "\n/*g*/ d\x7be:f\x7d".toList) oneHint
          .compact []).output
        = "a\x7btransition:b;transform:translateZ(0);\x7d".toList ++ "d\x7be:f;\x7d".toList ∧
      (accelerate ("a\x7btransition:b\x7d /*c*/ ".toList ++ "\n/*g*/ d\x7be:f\x7d".toList) oneHint
          .compact []).total = 1 + 1 ∧
      (accelerate ("a\x7btransition:b\x7d /*c*/ ".toList ++ "\n/*g*/ d\x7be:f\x7d".toList) oneHint
          .compact []).eligible = 1 + 0 ∧
      (accelerate ("a\x7btransition:b\x7d /*c*/ ".toList ++ "\n/*g*/ d\x7be:f\x7d".toList) oneHint
          .compact []).changed = 1 + 0 := by
  -- a tree can be compared with another one, a result with its error cannot
  have hok : ∀ {s : Text} {sheet}, (Stylesheet.ofSource s).toOption = some sheet →
      Stylesheet.ofSource s = .ok sheet := by
    intro s sheet h
    cases hs : Stylesheet.ofSource s with
    | error e => simp [hs, Except.toOption] at h
    | ok sheet' => simpa [hs, Except.toOption] using h
  have hfirst : Stylesheet.ofSource "a\x7btransition:b\x7d /*c*/ "
      = .ok [.rule ⟨["a"], [⟨"transition", "b", false⟩]⟩] := hok (by decide +kernel)
  have hsecond : Stylesheet.ofSource "\n/*g*/ d\x7be:f\x7d"
      = .ok [.rule ⟨["d"], [⟨"e", "f", false⟩]⟩] := hok (by decide +kernel)
  obtain ⟨hboth, houtput, htotal, heligible, hchanged⟩ :=
    (accelerate_append hfirst "\n/*g*/ d\x7be:f\x7d" oneHint .compact []).2 _ hsecond
  rw [houtput, htotal, heligible, hchanged]
  exact ⟨hboth, by decide +kernel⟩

end CssHints
