import CssHints.Proofs.Chunk
import CssHints.Proofs.Trim

/-!
# `CssHints.Proofs.RunText`: the texts that are read off a run of tokens

A run of tokens is read in one of three ways: as a trimmed text (a prelude), as selectors
separated by commas, or as a value with an optional mark of importance. For tokens of a source
(`Genuine`) none of the three makes up characters that count: the weight of what is read, with the
commas and the mark, is at most the weight of the run.
-/

set_option autoImplicit false

namespace CssHints.Token

/-! ### Tokens of a source -/

/-- The token has a text that fits its class, as all tokens of a source have. -/
def Genuine (t : Token) : Prop :=
  t.kind = .whitespace ∧ t.value = [' '] ∨
  t.kind ∈ longKinds ∧ (t.kind = .atKeyword → t.value.head? = some '@') ∨
  ∃ c, t.kind = .ofChar c ∧ t.value = [c]

/-- A lexeme that was read is genuine. A single sign is its own text, and a keyword starts with its
sign. -/
theorem genuine_of_next {c : Char} {s t rest : Text} {k : Kind} (loc : Location)
    (h : next c s = .ok (.lexeme k t, rest)) : Genuine ⟨k, t, loc⟩ := by
  rcases lexeme_of_next h with ⟨rfl, rfl⟩ | hk
  · exact .inr (.inr ⟨c, rfl, rfl⟩)
  · refine .inr (.inl ⟨hk, ?_⟩)
    rintro (rfl : k = .atKeyword)
    obtain ⟨a, ha, -⟩ := exists_cons_of_next h
    obtain rfl : t = c :: a := ha
    exact congrArg some (eq_at_of_next h)

/-- A gap is genuine. -/
theorem genuine_space (loc : Location) : Genuine (space loc) := .inl ⟨rfl, rfl⟩

/-- A token of pieces is a gap or a lexeme. The gaps stand for blanks or for comments; which of the
two is of no interest here. -/
theorem mem_ofPieces {t : Token} {last : Option Kind} {loc : Location} {ps : List Piece}
    (h : t ∈ ofPieces last loc ps) :
    (∃ l, t = space l) ∨ ∃ l k v, t = ⟨k, v, l⟩ ∧ Piece.lexeme k v ∈ ps := by
  induction ps generalizing last loc with
  | nil => cases h
  | cons p ps ih =>
      -- a token of the pieces behind, whatever was read before them
      have hrest : ∀ {last loc}, t ∈ ofPieces last loc ps →
          (∃ l, t = space l) ∨ ∃ l k v, t = ⟨k, v, l⟩ ∧ Piece.lexeme k v ∈ p :: ps := by
        intro last loc ht
        rcases ih ht with hs | ⟨l, k, v, ht, hm⟩
        · exact .inl hs
        · exact .inr ⟨l, k, v, ht, List.mem_cons_of_mem _ hm⟩
      cases p with
      | blanks w =>
          rw [ofPieces] at h
          split at h
          · exact hrest h
          · rcases List.mem_cons.1 h with rfl | h
            · exact .inl ⟨loc, rfl⟩
            · exact hrest h
      | comment w =>
          rw [ofPieces] at h
          split at h
          · rcases List.mem_cons.1 h with rfl | h
            · exact .inl ⟨loc, rfl⟩
            · exact hrest h
          · exact hrest h
      | lexeme k v =>
          rw [ofPieces] at h
          rcases List.mem_cons.1 h with rfl | h
          · exact .inr ⟨loc, k, v, rfl, List.mem_cons_self⟩
          · exact hrest h

/-- All tokens of a text are genuine. -/
theorem genuine_of_mem_words {s : Text} {ts : List Token} (h : words s = some ts) :
    ∀ t ∈ ts, Genuine t := by
  intro t ht
  obtain ⟨-, rfl⟩ := words_eq_some_iff.1 h
  rcases mem_ofPieces ht with ⟨l, rfl⟩ | ⟨l, k, v, rfl, hm⟩
  · exact genuine_space l
  · obtain ⟨c, s', rest, hnext⟩ := next_of_mem_cut hm
    exact genuine_of_next l hnext

/-- None of the tokens of a text is an `eof` token, the one that closes them apart. -/
theorem kind_ne_eof_of_mem_words {s : Text} {ts : List Token} (h : words s = some ts) :
    ∀ t ∈ ts, t.kind ≠ .eof := by
  intro t ht
  obtain ⟨-, rfl⟩ := words_eq_some_iff.1 h
  rcases mem_ofPieces ht with ⟨l, rfl⟩ | ⟨l, k, v, rfl, hm⟩
  · simp [space]
  · exact (kind_of_mem_cut hm).2

/-- The text of a token of a class with one character. The class determines the character, unless it
is the class of all other signs. -/
theorem Genuine.value_eq {t : Token} (h : Genuine t) {d : Char} (hk : t.kind = .ofChar d)
    (hd : .ofChar d ≠ Kind.delim) : t.value = [d] := by
  rcases h with ⟨hw, -⟩ | ⟨hl, -⟩ | ⟨c, hc, hv⟩
  · exact absurd (hk.symm.trans hw) (ofChar_ne_whitespace d)
  · rw [hk] at hl
    exact absurd hl (ofChar_notMem_longKinds d)
  · have hcd : Kind.ofChar c = .ofChar d := hc.symm.trans hk
    have : c = d := by
      unfold Kind.ofChar at hcd hd
      split at hcd <;> split at hcd <;> simp_all
    rw [hv, this]

/-! ### The weight of what is read -/

/-- A text of characters that are trimmed weighs nothing. -/
theorem weight_eq_zero_of_trimmed {s : Text} (hs : ∀ c ∈ s, Text.isTrimmed c = true) :
    weight s = 0 := by
  rw [weight, List.countP_eq_zero]
  intro c hc
  simp [weighs, hs c hc]

/-- Trimming takes nothing off the weight. -/
@[simp] theorem weight_trim (s : Text) : weight (Text.trim s) = weight s := by
  obtain ⟨a, b, hs, ha, hb⟩ := Text.exists_blanks_trim s
  have hsum := congrArg weight hs
  rw [weight_append, weight_append, weight_eq_zero_of_trimmed ha,
    weight_eq_zero_of_trimmed hb] at hsum
  omega

/-- The text of a run weighs as much as its characters. -/
@[simp] theorem weight_text (ts : List Token) : weight (text ts) = weight (concat ts) :=
  weight_trim _

/-- No tokens have no characters. -/
@[simp] theorem concat_nil : concat [] = [] := rfl

/-- The characters of a token stand in front of those of the tokens behind it. -/
@[simp] theorem concat_cons (t : Token) (ts : List Token) :
    concat (t :: ts) = t.value ++ concat ts := List.flatMap_cons

/-- The characters of two runs stand in a row. -/
@[simp] theorem concat_append (ts us : List Token) : concat (ts ++ us) = concat ts ++ concat us :=
  List.flatMap_append

/-- The text of a gap is one blank. -/
theorem Genuine.space_value {t : Token} (h : Genuine t) (hk : t.kind = .whitespace) :
    t.value = [' '] := by
  rcases h with ⟨-, hv⟩ | ⟨hl, -⟩ | ⟨c, hc, -⟩
  · exact hv
  · rw [hk] at hl
    exact absurd hl (by decide)
  · exact absurd (hc.symm.trans hk) (ofChar_ne_whitespace c)

/-- Gaps are blank. -/
theorem isTrimmed_of_mem_concat {ts : List Token} (hts : ∀ t ∈ ts, Genuine t)
    (hk : ∀ t ∈ ts, t.kind = .whitespace) : ∀ c ∈ concat ts, Text.isTrimmed c = true := by
  intro c hc
  obtain ⟨t, ht, hc⟩ := List.mem_flatMap.1 hc
  rw [(hts t ht).space_value (hk t ht), List.mem_singleton] at hc
  rw [hc]
  decide

/-- Gaps around a run leave its text as it is. -/
theorem text_gaps {g g' : List Token} (ts : List Token) (hg : ∀ t ∈ g, Genuine t)
    (hk : ∀ t ∈ g, t.kind = .whitespace) (hg' : ∀ t ∈ g', Genuine t)
    (hk' : ∀ t ∈ g', t.kind = .whitespace) : text (g ++ (ts ++ g')) = text ts := by
  rw [text, concat_append, concat_append,
    Text.trim_blanks_append (isTrimmed_of_mem_concat hg hk),
    Text.trim_append_blanks (isTrimmed_of_mem_concat hg' hk'), text]

/-- A run is split into at least one part. -/
theorem splitAtCommas_ne_nil (depth : Nat) (ts : List Token) : splitAtCommas depth ts ≠ [] := by
  cases ts with
  | nil => simp [splitAtCommas]
  | cons t ts =>
      rw [splitAtCommas]
      split
      · simp
      · split <;> simp

/-- The weight of texts with a separator of weight one behind each. -/
def weights (ss : List Text) : Nat := ss.foldr (fun s n => weight s + 1 + n) 0

/-- No texts weigh nothing. -/
@[simp] theorem weights_nil : weights [] = 0 := rfl

/-- A further text adds its weight and that of one separator. -/
@[simp] theorem weights_cons (s : Text) (ss : List Text) :
    weights (s :: ss) = weight s + 1 + weights ss := rfl

/-- Trimmed or not, the parts of a run weigh the same. -/
theorem weights_map_text (runs : List (List Token)) :
    weights (runs.map text) = weights (runs.map concat) := by
  induction runs with
  | nil => rfl
  | cons run runs ih => simp [ih]

/-- Each comma at which a run is split weighs one. With one separator counted behind each part,
there is one more of them than there are commas. -/
theorem weights_splitAtCommas {ts : List Token} (hts : ∀ t ∈ ts, Genuine t) (depth : Nat) :
    weights ((splitAtCommas depth ts).map concat) = weight (concat ts) + 1 := by
  induction ts generalizing depth with
  | nil => rfl
  | cons t ts ih =>
      have ih := ih fun u hu => hts u (List.mem_cons_of_mem _ hu)
      rw [splitAtCommas]
      split
      · rename_i hcomma
        have hv : t.value = [','] :=
          (hts t List.mem_cons_self).value_eq (d := ',') hcomma.1 (by decide)
        have hw : weight [','] = 1 := by decide
        rw [List.map_cons, weights_cons, ih, concat_cons, weight_append, hv, hw, concat_nil,
          weight_nil]
        omega
      · -- the token belongs to the first part of what follows
        have := ih (groupDepth depth t)
        split
        · rename_i hnil
          rw [hnil] at this
          simp at this
        · rename_i run runs hruns
          rw [hruns, List.map_cons, weights_cons] at this
          rw [List.map_cons, weights_cons, concat_cons, concat_cons, weight_append, weight_append]
          omega

/-- Two or more texts are joined with the separator behind the first. -/
theorem join_cons_cons (sep s t : Text) (ts : List Text) :
    Text.join sep (s :: t :: ts) = s ++ (sep ++ Text.join sep (t :: ts)) := by
  simp [Text.join, List.intercalate, List.intersperse]

/-- One text is joined without a separator. -/
@[simp] theorem join_singleton (sep s : Text) : Text.join sep [s] = s := by
  simp [Text.join, List.intercalate]

/-- Joined texts weigh one more for each separator. -/
theorem weight_join {sep : Text} (hsep : weight sep = 1) {ss : List Text} (hss : ss ≠ []) :
    weight (Text.join sep ss) + 1 = weights ss := by
  induction ss with
  | nil => exact absurd rfl hss
  | cons s ss ih =>
      cases ss with
      | nil => simp
      | cons t ss =>
          have ih := ih (by simp)
          rw [join_cons_cons, weight_append, weight_append, hsep, weights_cons]
          omega

/-- Leaving out texts adds no weight. -/
theorem weights_filter_le (p : Text → Bool) (ss : List Text) :
    weights (ss.filter p) ≤ weights ss := by
  induction ss with
  | nil => simp
  | cons s ss ih =>
      rw [List.filter_cons]
      split
      · rw [weights_cons, weights_cons]
        omega
      · rw [weights_cons]
        omega

/-- Written selectors weigh no more than the run they were read from. Each comma between selectors
was one in the run; those next to an empty part are left out. -/
theorem weight_join_splitSelectors {ts : List Token} (hts : ∀ t ∈ ts, Genuine t) {sep : Text}
    (hsep : weight sep = 1) (hne : splitSelectors ts ≠ []) :
    weight (Text.join sep (splitSelectors ts)) ≤ weight (concat ts) := by
  have hjoin := weight_join hsep hne
  have hle := weights_filter_le (· ≠ []) ((splitAtCommas 0 ts).map text)
  rw [weights_map_text, weights_splitAtCommas hts 0] at hle
  have hsum : weight (Text.join sep (splitSelectors ts)) + 1 ≤ weight (concat ts) + 1 := by
    rw [hjoin]
    exact hle
  omega

/-! ### Values and marks of importance -/

open CssHints.Parser (skipSpace skipSpaceRight splitImportant)

/-- What is skipped at the front are gaps. -/
theorem exists_skipSpace (ts : List Token) :
    ∃ g, ts = g ++ skipSpace ts ∧ ∀ t ∈ g, t.kind = .whitespace := by
  refine ⟨ts.takeWhile (·.kind = .whitespace), ?_, ?_⟩
  · rw [skipSpace, List.takeWhile_append_dropWhile]
  · intro t ht
    simpa using List.all_eq_true.1 List.all_takeWhile t ht

/-- Nothing is skipped where no gap stands. -/
theorem skipSpace_eq_self {ts : List Token} (h : ∀ t ∈ ts.head?, t.kind ≠ .whitespace) :
    skipSpace ts = ts := by
  cases ts with
  | nil => rfl
  | cons t ts => simp [skipSpace, h t rfl]

/-- What is left starts with no gap. -/
theorem head?_skipSpace (ts : List Token) : ∀ t ∈ (skipSpace ts).head?, t.kind ≠ .whitespace := by
  intro t ht
  have hdrop := List.head?_dropWhile_not (fun t : Token => decide (t.kind = .whitespace)) ts
  rw [skipSpace] at ht
  rw [ht] at hdrop
  simpa using hdrop

/-- Gaps are skipped in front of a token that is none, and what stands behind it is not looked
at. -/
theorem skipSpace_append {t : Token} (ht : t.kind ≠ .whitespace) (ts us : List Token) :
    skipSpace (ts ++ t :: us) = skipSpace ts ++ t :: us := by
  induction ts with
  | nil => exact skipSpace_eq_self (by simpa using ht)
  | cons u ts ih =>
      by_cases hu : u.kind = .whitespace
      · simpa [skipSpace, hu] using ih
      · simp [skipSpace, hu]

/-- Gaps at the start of a run leave its text as it is. -/
theorem text_skipSpace {ts : List Token} (hts : ∀ t ∈ ts, Genuine t) :
    text (skipSpace ts) = text ts := by
  obtain ⟨g, hg, hk⟩ := exists_skipSpace ts
  have h : text (g ++ (skipSpace ts ++ [])) = text (skipSpace ts) := text_gaps _
    (fun t ht => hts t (by rw [hg]; exact List.mem_append_left _ ht)) hk (by simp) (by simp)
  rw [List.append_nil, ← hg] at h
  exact h.symm

/-- What is skipped at the end are gaps. -/
theorem exists_skipSpaceRight (ts : List Token) :
    ∃ g, ts = skipSpaceRight ts ++ g ∧ ∀ t ∈ g, t.kind = .whitespace := by
  obtain ⟨g, hg, hk⟩ := exists_skipSpace ts.reverse
  refine ⟨g.reverse, ?_, fun t ht => hk t (List.mem_reverse.1 ht)⟩
  have h := congrArg List.reverse hg
  rw [List.reverse_reverse, List.reverse_append] at h
  exact h

/-- What is skipped at both ends are gaps. -/
theorem exists_skipSpaces (ts : List Token) :
    ∃ g g', ts = g ++ (skipSpaceRight (skipSpace ts) ++ g') ∧ (∀ t ∈ g, t.kind = .whitespace) ∧
      ∀ t ∈ g', t.kind = .whitespace := by
  obtain ⟨g, hg, hk⟩ := exists_skipSpace ts
  obtain ⟨g', hg', hk'⟩ := exists_skipSpaceRight (skipSpace ts)
  refine ⟨g, g', ?_, hk, hk'⟩
  rw [← hg', ← hg]

/-- The mark of importance: an exclamation mark and the word, with gaps between them and
behind. -/
def MarksImportant (ts : List Token) : Prop :=
  ∃ bang gap word gap', ts = bang :: (gap ++ word :: gap') ∧
    (bang.kind = .delim ∧ bang.value = ['!']) ∧ (∀ t ∈ gap, t.kind = .whitespace) ∧
    (word.kind = .ident ∧ Text.lower word.value = "important".toList) ∧
    ∀ t ∈ gap', t.kind = .whitespace

/-- A value is what stands between gaps, or between a gap and a mark of importance. The reader looks
at the last tokens first, so the proof takes them off the end: the word, the gap before it, and the
sign. -/
theorem splitImportant_cases (ts : List Token) :
    (∃ g value g', ts = g ++ (value ++ g') ∧ (∀ t ∈ g, t.kind = .whitespace) ∧
      (∀ t ∈ g', t.kind = .whitespace) ∧ splitImportant ts = (text value, false)) ∨
    ∃ g value mark, ts = g ++ (value ++ mark) ∧ (∀ t ∈ g, t.kind = .whitespace) ∧
      MarksImportant mark ∧ splitImportant ts = (text value, true) := by
  obtain ⟨g, g', hts, hg, hg'⟩ := exists_skipSpaces ts
  -- in all cases without a mark the value is the run without its outer gaps
  have hplain : splitImportant ts = (text (skipSpaceRight (skipSpace ts)), false) →
      ∃ g value g', ts = g ++ (value ++ g') ∧ (∀ t ∈ g, t.kind = .whitespace) ∧
        (∀ t ∈ g', t.kind = .whitespace) ∧ splitImportant ts = (text value, false) :=
    fun h => ⟨g, _, g', hts, hg, hg', h⟩
  cases hcore : (skipSpaceRight (skipSpace ts)).reverse with
  | nil => exact .inl (hplain (by simp [splitImportant, hcore]))
  | cons word before =>
      by_cases hword : word.kind = .ident ∧ Text.lower word.value = "important".toList
      case neg =>
        refine .inl (hplain ?_)
        simp only [splitImportant, hcore]
        rw [if_neg hword]
      obtain ⟨i, gap, hbefore, hi, hgap⟩ := exists_skipSpaces before.reverse
      cases hrest : (skipSpaceRight (skipSpace before.reverse)).reverse with
      | nil =>
          refine .inl (hplain ?_)
          simp only [splitImportant, hcore]
          rw [if_pos hword]
          simp only [hrest]
      | cons bang value =>
          by_cases hbang : bang.kind = .delim ∧ bang.value = ['!']
          case neg =>
            refine .inl (hplain ?_)
            simp only [splitImportant, hcore]
            rw [if_pos hword]
            simp only [hrest]
            rw [if_neg hbang]
          -- the reader skips gaps in front of the value a second time; `i` is what it finds then
          refine .inr ⟨g ++ i, value.reverse, bang :: (gap ++ word :: g'), ?_, ?_, ?_, ?_⟩
          · have h₁ := congrArg List.reverse hcore
            have h₂ := congrArg List.reverse hrest
            rw [List.reverse_reverse] at h₁ h₂
            rw [List.reverse_cons] at h₁ h₂
            rw [h₂] at hbefore
            rw [h₁, hbefore] at hts
            simpa using hts
          · intro t ht
            rcases List.mem_append.1 ht with ht | ht
            · exact hg t ht
            · exact hi t ht
          · exact ⟨bang, gap, word, g', rfl, hbang, hgap, hword, hg'⟩
          · simp only [splitImportant, hcore]
            rw [if_pos hword]
            simp only [hrest]
            rw [if_pos hbang]

/-- A blank has no other case. -/
theorem lowerChar_of_isTrimmed {c : Char} (hc : Text.isTrimmed c = true) :
    Text.lowerChar c = c := by
  rcases Text.lowerChar_cases c with ⟨rfl, -⟩ | ⟨hrange, -⟩ | hsame
  · exact absurd hc (by decide)
  · simp [Text.isTrimmed, Text.inRanges, Text.blankRanges] at hc
    omega
  · exact hsame

/-- A small letter counts. -/
theorem weighs_of_letter {c : Char} (hc : 97 ≤ c.toNat ∧ c.toNat ≤ 122) : weighs c = true := by
  have hsemi : c ≠ ';' := by
    rintro rfl
    revert hc
    decide
  simp only [weighs, Text.isTrimmed, Text.inRanges, Text.blankRanges, Bool.and_eq_true]
  refine ⟨?_, by simp [hsemi]⟩
  simp
  omega

/-- A character counts in one case just if it does so in the other. -/
theorem weighs_lowerChar (c : Char) : weighs (Text.lowerChar c) = weighs c := by
  by_cases hc : Text.isTrimmed c = true
  · rw [lowerChar_of_isTrimmed hc]
  by_cases hsemi : c = ';'
  · rw [hsemi]
    decide
  -- the lower case of a character that counts is a letter or the character itself
  have hwc : weighs c = true := by simp [weighs, hc, hsemi]
  rcases Text.lowerChar_cases c with ⟨-, hk⟩ | ⟨hrange, hnat⟩ | hsame
  · rw [hk, hwc]
    decide
  · rw [hwc]
    exact weighs_of_letter (by omega)
  · rw [hsame]

/-- A text weighs the same in small letters. -/
@[simp] theorem weight_lower (s : Text) : weight (Text.lower s) = weight s := by
  rw [weight, Text.lower, List.countP_map, weight]
  exact congrArg (List.countP · s) (funext weighs_lowerChar)

/-- Gaps weigh nothing. -/
theorem weight_eq_zero_of_space {ts : List Token} (hts : ∀ t ∈ ts, Genuine t)
    (hk : ∀ t ∈ ts, t.kind = .whitespace) : weight (concat ts) = 0 :=
  weight_eq_zero_of_trimmed (isTrimmed_of_mem_concat hts hk)

/-- A mark of importance weighs as much however it is written: one for the sign and nine for the
word, in whatever case. -/
theorem MarksImportant.weight_eq {ts : List Token} (h : MarksImportant ts)
    (hts : ∀ t ∈ ts, Genuine t) : weight (concat ts) = 10 := by
  obtain ⟨bang, gap, word, gap', rfl, ⟨-, hbang⟩, hgap, ⟨-, hword⟩, hgap'⟩ := h
  have hw : weight word.value = 9 := by
    rw [← weight_lower, hword]
    decide
  have hb : weight bang.value = 1 := by
    rw [hbang]
    decide
  have hg := weight_eq_zero_of_space (fun t ht => hts t (by simp [ht])) hgap
  have hg' := weight_eq_zero_of_space (fun t ht => hts t (by simp [ht])) hgap'
  simp only [concat_cons, concat_append, weight_append, hw, hb, hg, hg']

/-- A value and its mark weigh as much as the run they were read from. So a value with its mark,
written anew, weighs what it weighed in the source. -/
theorem weight_splitImportant {ts : List Token} (hts : ∀ t ∈ ts, Genuine t) :
    weight (splitImportant ts).1 + (if (splitImportant ts).2 then 10 else 0)
      = weight (concat ts) := by
  rcases splitImportant_cases ts with ⟨g, value, g', he, hg, hg', hs⟩ |
    ⟨g, value, mark, he, hg, hm, hs⟩
  · subst he
    have h₁ := weight_eq_zero_of_space (fun t ht => hts t (by simp [ht])) hg
    have h₂ := weight_eq_zero_of_space (fun t ht => hts t (by simp [ht])) hg'
    rw [hs]
    simp [h₁, h₂]
  · subst he
    have h₁ := weight_eq_zero_of_space (fun t ht => hts t (by simp [ht])) hg
    have h₂ := hm.weight_eq fun t ht => hts t (by simp [ht])
    rw [hs]
    simp [h₁, h₂]

end CssHints.Token
