import CssHints.Proofs.Boundary
import CssHints.Proofs.Places
import CssHints.Text.Blank

/-!
# `CssHints.Proofs.Chunk`: texts that read the same wherever they stand

A written stylesheet is a row of chunks: each ends with a mark, that is a separator that is a
piece of its own, and the blanks of the layout stand in front. A chunk is `Sealed`: its pieces are
the same whatever follows. Sealed texts are put together by appending their pieces
(`Sealed.append`), so what a whole stylesheet reads as is known from its chunks.

The pieces become tokens by `Piece.token`, as long as there is no comment among them
(`map_unplaced_ofPieces`). `weight` is how that is seen: it counts the characters that are neither
blanks nor semicolons, and tokens keep the weight of their source except for the comments, which
weigh something (`weight_ofPieces`). So a text whose tokens weigh as much as the text itself has
no comments (`noComment_of_weight`).
-/

set_option autoImplicit false

namespace CssHints.Token

/-! ### Marks and sealed texts -/

/-- A separator that is a piece of its own. -/
def isMark (d : Char) : Bool :=
  isSeparator d && !isBlank d && !isQuote d && d ≠ '/' && d ≠ '@' && d ≠ '#'

/-- A mark is a separator. -/
theorem isSeparator_of_isMark {d : Char} (hd : isMark d = true) : isSeparator d = true := by
  simp only [isMark, Bool.and_eq_true] at hd
  exact hd.1.1.1.1.1

/-- A mark is no blank. -/
theorem isBlank_of_isMark {d : Char} (hd : isMark d = true) : isBlank d = false := by
  simp only [isMark, Bool.and_eq_true, Bool.not_eq_true'] at hd
  exact hd.1.1.1.1.2

/-- A mark is no quote. -/
theorem isQuote_of_isMark {d : Char} (hd : isMark d = true) : isQuote d = false := by
  simp only [isMark, Bool.and_eq_true, Bool.not_eq_true'] at hd
  exact hd.1.1.1.2

/-- A mark is read as a piece of its own, whatever follows. No number, name, string or comment
starts with one. -/
theorem next_mark {d : Char} (hd : isMark d = true) (b : Text) :
    next d b = .ok (.lexeme (.ofChar d) [d], b) := by
  have hsep := isSeparator_of_isMark hd
  obtain ⟨hescape, -, -, hpoint, -⟩ := ne_of_separator hsep
  simp only [isMark, Bool.and_eq_true, Bool.not_eq_true', decide_eq_true_eq] at hd
  obtain ⟨⟨⟨⟨⟨-, hblank⟩, hquote⟩, hslash⟩, hat⟩, hhash⟩ := hd
  -- no piece but a single sign starts with a mark
  have hsign : startsOnlySign d = true := by
    simp [startsOnlySign, isNameChar_separator hsep, isSign_separator hsep, hblank, hquote, hescape,
      hpoint, hslash]
  rw [next_of_startsSign (startsSign_of_startsOnlySign hsign b),
    readSign_self (by simp [hat]) (by simp [hhash])]

/-- A blank is a separator. It is no mark, since blanks that meet are one piece. -/
theorem isSeparator_of_isBlank {d : Char} (hd : isBlank d = true) : isSeparator d = true := by
  simp only [isBlank, Bool.or_eq_true, decide_eq_true_eq] at hd
  rcases hd with (((rfl | rfl) | rfl) | rfl) | rfl <;> decide

/-- The text ends where a separator may follow. -/
structure Solid (a : Text) : Prop where
  /-- Every piece has an end. -/
  stuck : (cut a).stuck = none
  /-- No backslash stands alone at the end. -/
  dangling : ¬Dangling a

/-- The empty text is solid. -/
theorem solid_nil : Solid [] := by
  refine ⟨by rw [cut_nil], ?_⟩
  rw [Dangling, cut_nil]
  simp

/-- The text has the pieces `ps`, and what follows keeps its own. -/
def Sealed (a : Text) (ps : List Piece) : Prop :=
  ∀ b, cut (a ++ b) = ⟨ps ++ (cut b).pieces, (cut b).stuck⟩

/-- The empty text is sealed, with no pieces. -/
theorem Sealed.nil : Sealed [] [] := fun _ => rfl

/-- Two sealed texts in a row are sealed, with the pieces of both. -/
theorem Sealed.append {a b : Text} {ps qs : List Piece} (ha : Sealed a ps) (hb : Sealed b qs) :
    Sealed (a ++ b) (ps ++ qs) := by
  intro c
  rw [List.append_assoc, ha, hb, List.append_assoc]

/-- A mark seals the text before it: it is a separator, so the pieces in front of it stay what they
are, and it is a piece of its own, so the pieces behind it do too. -/
theorem Solid.mark {a : Text} (ha : Solid a) {d : Char} (hd : isMark d = true) :
    Sealed (a ++ [d]) ((cut a).pieces ++ [.lexeme (.ofChar d) [d]]) := by
  intro b
  have hsep := cut_append_separator (isSeparator_of_isMark hd) b ha.stuck ha.dangling
    (by simp [isBlank_of_isMark hd])
  rw [List.append_assoc, List.singleton_append, hsep, cut_cons_of_next (next_mark hd b)]
  simp

/-- A mark by itself is sealed. -/
theorem sealed_mark {d : Char} (hd : isMark d = true) :
    Sealed [d] [.lexeme (.ofChar d) [d]] := by
  have h := solid_nil.mark hd
  rw [cut_nil] at h
  exact h

/-- Blanks in front of anything else are one piece, which ends where the blanks do. -/
theorem cut_blanks {w : Text} (hw : ∀ c ∈ w, isBlank c = true) (hne : w ≠ []) {c : Char}
    (hc : isBlank c = false) (b : Text) :
    cut (w ++ c :: b) = ⟨.blanks w :: (cut (c :: b)).pieces, (cut (c :: b)).stuck⟩ := by
  obtain ⟨d, w, rfl⟩ := List.exists_cons_of_ne_nil hne
  have hall : ∀ x ∈ w, isBlank x = true := fun x hx => hw x (List.mem_cons_of_mem _ hx)
  have hnext : next d (w ++ c :: b) = .ok (.blanks (d :: w), c :: b) := by
    rw [next_of_isBlank (hw d List.mem_cons_self), List.takeWhile_append_of_pos hall,
      List.dropWhile_append_of_pos hall]
    simp [hc]
  rw [List.cons_append, cut_cons_of_next hnext]

/-- Blanks between a text that ends with none and a sealed text that starts with none. The blanks
are one piece, since there are no others at their ends. -/
theorem Solid.gap {a : Text} (ha : Solid a)
    (hlast : ∀ w, (cut a).pieces.getLast? ≠ some (.blanks w)) {w : Text}
    (hw : ∀ c ∈ w, isBlank c = true) (hne : w ≠ []) {c : Char} {y : Text} {ps : List Piece}
    (hc : isBlank c = false) (hy : Sealed (c :: y) ps) :
    Sealed (a ++ (w ++ c :: y)) ((cut a).pieces ++ .blanks w :: ps) := by
  intro b
  obtain ⟨d, w, rfl⟩ := List.exists_cons_of_ne_nil hne
  have hsep := isSeparator_of_isBlank (hw d List.mem_cons_self)
  have hgap := cut_blanks hw hne hc (y ++ b)
  have hrest := hy b
  rw [List.cons_append] at hgap hrest
  rw [List.append_assoc, List.cons_append, List.cons_append, List.append_assoc, List.cons_append,
    cut_append_separator hsep _ ha.stuck ha.dangling (fun _ => hlast), hgap, hrest]
  simp

/-- Blanks in front of a sealed text that starts with none. -/
theorem Sealed.indent {w : Text} (hw : ∀ c ∈ w, isBlank c = true) (hne : w ≠ []) {c : Char}
    {y : Text} {ps : List Piece} (hc : isBlank c = false) (hy : Sealed (c :: y) ps) :
    Sealed (w ++ c :: y) (.blanks w :: ps) := by
  have h := solid_nil.gap (by rw [cut_nil]; simp) hw hne hc hy
  rw [cut_nil] at h
  exact h

/-! ### What a piece can be -/

/-- A run of blanks is read up to the first character that is none, also if part of the run comes
with the text behind. -/
theorem next_blanks_append {c : Char} {s : Text} (hc : isBlank c = true)
    (hs : ∀ x ∈ s, isBlank x = true) (y : Text) :
    next c (s ++ y) = .ok (.blanks (c :: s ++ y.takeWhile isBlank), y.dropWhile isBlank) := by
  rw [next_of_isBlank hc, List.takeWhile_append_of_pos hs, List.dropWhile_append_of_pos hs]
  rfl

/-- A run of blanks that was read is blank throughout, and it ends where something else starts. -/
theorem blanks_of_next {c : Char} {s v rest : Text} (h : next c s = .ok (.blanks v, rest)) :
    ∃ t, v = c :: t ∧ s = t ++ rest ∧ (∀ x ∈ c :: t, isBlank x = true) ∧
      ∀ x ∈ rest.head?, isBlank x = false := by
  obtain ⟨hc, rfl, rfl⟩ := of_next_blanks h
  refine ⟨_, rfl, List.takeWhile_append_dropWhile.symm, ?_, ?_⟩
  · intro x hx
    rcases List.mem_cons.1 hx with rfl | hx
    · exact hc
    · exact List.all_eq_true.1 List.all_takeWhile x hx
  · intro x hx
    have := List.head?_dropWhile_not isBlank s
    rw [hx] at this
    simpa using this

/-- Every piece of a source was read from some part of it. So what is true of every piece that can
be read is true of the pieces of a source. -/
theorem next_of_mem_cut {s : Text} {p : Piece} (h : p ∈ (cut s).pieces) :
    ∃ c t rest, next c t = .ok (p, rest) := by
  fun_induction cut s with
  | case1 => cases h
  | case2 c s f hf => cases h
  | case3 c s q rest hq ih =>
      rcases List.mem_cons.1 h with rfl | h
      · exact ⟨c, s, rest, hq⟩
      · exact ih h

/-- No single sign has the class of a gap. -/
theorem ofChar_ne_whitespace (c : Char) : Kind.ofChar c ≠ .whitespace := by
  unfold Kind.ofChar
  split <;> decide

/-- No single sign has the class of the end of a source. -/
theorem ofChar_ne_eof (c : Char) : Kind.ofChar c ≠ .eof := by
  unfold Kind.ofChar
  split <;> decide

/-- A lexeme is neither a gap nor the end of a source. So an `eof` token in a list of tokens that
was made from a source is the one that closes it. -/
theorem kind_of_mem_cut {s t : Text} {k : Kind} (h : Piece.lexeme k t ∈ (cut s).pieces) :
    k ≠ .whitespace ∧ k ≠ .eof := by
  obtain ⟨c, s, rest, hnext⟩ := next_of_mem_cut h
  rcases lexeme_of_next hnext with ⟨rfl, -⟩ | hk
  · exact ⟨ofChar_ne_whitespace c, ofChar_ne_eof c⟩
  · constructor <;> rintro rfl <;> exact absurd hk (by decide)

/-! ### The tokens of pieces -/

/-- The token of a piece, at no particular place. A comment is counted as a gap here, though it
mostly leaves no token; the lemmas below are about pieces without comments. -/
def Piece.token : Piece → Token
  | .blanks _ => space .start
  | .comment _ => space .start
  | .lexeme k t => ⟨k, t, .start⟩

/-- There is no comment among the pieces of the text. -/
def NoComment (s : Text) : Prop := ∀ w, Piece.comment w ∉ (cut s).pieces

/-- Without comments each piece gives one token: two runs of blanks never meet. With comments a run
of blanks behind another one would give no token, and a comment between two words would give one. -/
theorem map_unplaced_ofPieces {s : Text} (hs : NoComment s) {last : Option Kind}
    (hlast : last = some .whitespace → ∀ x ∈ s.head?, isBlank x = false) (loc : Location) :
    (ofPieces last loc (cut s).pieces).map unplaced = (cut s).pieces.map Piece.token := by
  fun_induction cut s generalizing last loc with
  | case1 => rfl
  | case2 c s f h => rfl
  | case3 c s p rest h ih =>
      rw [NoComment, cut_cons_of_next h] at hs
      have hrest : NoComment rest := fun w hw => hs w (List.mem_cons_of_mem _ hw)
      cases p with
      | blanks w =>
          obtain ⟨t, -, -, hall, hhead⟩ := blanks_of_next h
          -- the token before is no gap, since no blank stands in front of a run of blanks
          have hne : last ≠ some .whitespace := by
            intro he
            have hblank := hall c List.mem_cons_self
            rw [hlast he c rfl] at hblank
            cases hblank
          simp only [ofPieces, if_neg hne, List.map_cons, Piece.token]
          rw [ih hrest (fun _ => hhead)]
          rfl
      | comment w => exact absurd List.mem_cons_self (hs _)
      | lexeme k t =>
          have hk : k ≠ .whitespace := (kind_of_mem_cut (s := c :: s) (t := t) (by
            rw [cut_cons_of_next h]
            exact List.mem_cons_self)).1
          simp only [ofPieces, List.map_cons, Piece.token]
          rw [ih hrest (fun he => absurd (by simpa using he) hk)]
          rfl

/-! ### Weight -/

/-- The character counts: it is neither a blank nor a semicolon. -/
def weighs (c : Char) : Bool := !Text.isTrimmed c && c ≠ ';'

/-- How many characters of the text count. -/
def weight (s : Text) : Nat := s.countP weighs

/-- The empty text weighs nothing. -/
@[simp] theorem weight_nil : weight [] = 0 := rfl

/-- Weights add up. -/
@[simp] theorem weight_append (s t : Text) : weight (s ++ t) = weight s + weight t :=
  List.countP_append

/-- A character that counts adds one to the weight. -/
theorem weight_cons (c : Char) (s : Text) :
    weight (c :: s) = weight s + if weighs c = true then 1 else 0 := List.countP_cons

/-- The text of a gap is blank. -/
theorem isBlank_of_mem_space : ∀ c ∈ [' '], isBlank c = true := by
  simp [isBlank]

/-- A blank of a stylesheet is trimmed. There are more characters that are trimmed. -/
theorem isTrimmed_of_isBlank {c : Char} (hc : isBlank c = true) : Text.isTrimmed c = true := by
  simp only [isBlank, Bool.or_eq_true, decide_eq_true_eq] at hc
  rcases hc with (((rfl | rfl) | rfl) | rfl) | rfl <;> decide

/-- Blanks weigh nothing. -/
theorem weight_eq_zero {w : Text} (hw : ∀ c ∈ w, isBlank c = true) : weight w = 0 := by
  rw [weight, List.countP_eq_zero]
  intro c hc
  simp [weighs, isTrimmed_of_isBlank (hw c hc)]

/-- The characters of a comment. -/
def Piece.commentText : Piece → Text
  | .comment w => w
  | _ => []

/-- Tokens keep the weight of their pieces, comments apart. Blanks weigh nothing, and so does the
gap that stands for them or for a comment. -/
theorem weight_ofPieces {ps : List Piece}
    (hps : ∀ w, Piece.blanks w ∈ ps → ∀ c ∈ w, isBlank c = true) (last : Option Kind)
    (loc : Location) :
    weight (concat (ofPieces last loc ps)) + weight (ps.flatMap Piece.commentText)
      = weight (ps.flatMap Piece.text) := by
  induction ps generalizing last loc with
  | nil => rfl
  | cons p ps ih =>
      have ih := ih fun w hw => hps w (List.mem_cons_of_mem _ hw)
      have hspace : ∀ l, weight (space l).value = 0 := fun _ => rfl
      cases p with
      | blanks w =>
          have hw := weight_eq_zero (hps w List.mem_cons_self)
          simp only [ofPieces, List.flatMap_cons, Piece.text, Piece.commentText, weight_append, hw]
          split
          · simpa using ih last (loc.after w)
          · simpa [concat, hspace] using ih (some .whitespace) (loc.after w)
      -- a comment between two words leaves a gap, which weighs nothing, so its weight is lost
      | comment w =>
          simp only [ofPieces, List.flatMap_cons, Piece.text, Piece.commentText, weight_append]
          split
          · have := ih (some .whitespace) (loc.after w)
            simp only [concat, List.flatMap_cons, weight_append, hspace] at this ⊢
            omega
          · have := ih last (loc.after w)
            omega
      | lexeme k t =>
          have := ih (some k) (loc.after t)
          simp only [ofPieces, List.flatMap_cons, Piece.text, Piece.commentText, weight_append,
            concat, weight_nil] at this ⊢
          omega

/-- A text whose tokens weigh no less than the text has no comment. A comment would be missing from
the tokens, and it weighs something. -/
theorem noComment_of_weight {s : Text} (hstuck : (cut s).stuck = none)
    (h : weight s ≤ weight (concat (ofPieces none .start (cut s).pieces))) : NoComment s := by
  intro w hw
  have happ := cut_append s
  rw [hstuck] at happ
  have hblanks : ∀ w, Piece.blanks w ∈ (cut s).pieces → ∀ c ∈ w, isBlank c = true := by
    intro w hw
    obtain ⟨c, t, rest, hnext⟩ := next_of_mem_cut hw
    obtain ⟨v, rfl, -, hall, -⟩ := blanks_of_next hnext
    exact hall
  have hsum := weight_ofPieces hblanks none .start
  -- a comment starts with two characters that count
  have hcomment : 0 < weight ((cut s).pieces.flatMap Piece.commentText) := by
    obtain ⟨c, t, rest, hnext⟩ := next_of_mem_cut hw
    obtain ⟨before, behind, hsplit⟩ := List.append_of_mem hw
    obtain ⟨-, u, body, -, rfl, -⟩ := of_next_comment hnext
    have hslash : weighs '/' = true := by decide
    rw [hsplit, List.flatMap_append, List.flatMap_cons, weight_append, weight_append]
    simp only [Piece.commentText, weight_cons, hslash, if_true]
    omega
  have hs : weight ((cut s).pieces.flatMap Piece.text) = weight s := by
    conv => rhs; rw [← happ]
    simp
  omega

/-! ### The tokens of a whole text -/

/-- The tokens of a text without the `eof` token that closes them; none if the text cannot be cut
into pieces. -/
def words (s : Text) : Option (List Token) :=
  match tokenize s with
  | .ok ts => some ts.dropLast
  | .error _ => none

/-- The tokens of a text are those of its pieces, and there are some just if every piece has an
end. -/
theorem words_eq_some_iff {s : Text} {ts : List Token} :
    words s = some ts ↔ (cut s).stuck = none ∧ ts = ofPieces none .start (cut s).pieces := by
  simp only [words, tokenize]
  cases (cut s).stuck with
  | none => simp [eq_comm]
  | some f => simp

/-- The tokens of a text without comments, at no particular place: one for each piece. -/
theorem words_map_unplaced {s : Text} {ts : List Token} (h : words s = some ts)
    (hs : NoComment s) : ts.map unplaced = (cut s).pieces.map Piece.token := by
  obtain ⟨-, rfl⟩ := words_eq_some_iff.1 h
  exact map_unplaced_ofPieces hs (by simp) _

end CssHints.Token
