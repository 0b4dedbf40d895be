import CssHints.Proofs.Origins
import CssHints.Proofs.Stretch

/-!
# `CssHints.Proofs.Plain`: plain sources give trees that can be written

A source is `Plain` if it has no backslash and no comment, and no character that trimming takes off
apart from the blanks of a stylesheet. Its tree is safe to be written, under two conditions on its
rules: the first selector starts with no `@`, and while a group is open in the prelude of a rule, no
bracket of the wrong form closes (`renderSafe_of_plain`).

The texts in a tree come from closed runs of tokens (`each_of_ofSource`): the tokens are joined and
the gaps at the two ends are trimmed off. Such a text has these tokens again, out of its context,
since a closed run is a stretch of the source (`Plain.exists_clean`). The two ways in which brackets
are followed, by their form for runs and by counting for selectors, agree on preludes without wrong
brackets (`Matched`), so each selector is a closed run too (`closes_splitAtCommas`).
-/

set_option autoImplicit false

namespace CssHints.Token

open Grammar (ClosedRun Closes openAfter NoBracket noBracket_of_whitespace)
open CssHints.Parser (skipSpace skipSpaceRight splitImportant)

/-! ### Plain sources -/

/-- The source has no backslash and no comment, and what trimming takes off it are blanks of a
stylesheet only. -/
structure Plain (s : Text) : Prop where
  noBackslash : '\\' ∉ s
  noComment : ¬['/', '*'] <:+: s
  blanks : ∀ c ∈ s, Text.isTrimmed c = true → isBlank c = true

/-- Every piece of a source was read from some place in it, where the source goes on to its end. So
what the source lacks, each piece and the text behind it lack as well. -/
theorem exists_suffix_of_mem_cut {s : Text} {p : Piece} (h : p ∈ (cut s).pieces) :
    ∃ c t rest, c :: t <:+ s ∧ next c t = .ok (p, rest) := by
  fun_induction cut s with
  | case1 => cases h
  | case2 c s f hf => cases h
  | case3 c s q rest hq ih =>
      rcases List.mem_cons.1 h with rfl | h
      · exact ⟨c, s, rest, List.suffix_refl _, hq⟩
      · obtain ⟨d, t, rest', hsuffix, hnext⟩ := ih h
        have hrest : rest <:+ c :: s := ⟨q.text, next_append hq⟩
        exact ⟨d, t, rest', hsuffix.trans hrest, hnext⟩

/-- A plain source has no comment among its pieces, since a comment starts with a slash and a
star. -/
theorem Plain.noComments {s : Text} (h : Plain s) : NoComment s := by
  intro w hw
  obtain ⟨c, t, rest, hsuffix, hnext⟩ := exists_suffix_of_mem_cut hw
  obtain ⟨rfl, u, body, rfl, -, -⟩ := of_next_comment hnext
  have hstart : ['/', '*'] <+: '/' :: '*' :: u := ⟨u, rfl⟩
  exact h.noComment (hstart.isInfix.trans hsuffix.isInfix)

section Words

variable {s : Text} {all : List Token}

/-- What a token of a plain source looks like, unless it is a gap: it has no backslash, it is not
empty, and trimming takes nothing off its ends. -/
theorem Plain.value_of_mem (h : Plain s) (hwords : words s = some all) {t : Token} (ht : t ∈ all)
    (hk : t.kind ≠ .whitespace) :
    '\\' ∉ t.value ∧ t.value ≠ [] ∧ (∀ c ∈ t.value.head?, Text.isTrimmed c = false) ∧
      ∀ c ∈ t.value.getLast?, Text.isTrimmed c = false := by
  obtain ⟨-, rfl⟩ := words_eq_some_iff.1 hwords
  rcases mem_ofPieces ht with ⟨loc, rfl⟩ | ⟨loc, k, v, rfl, hmem⟩
  · exact absurd rfl hk
  obtain ⟨c, t, rest, hsuffix, hnext⟩ := exists_suffix_of_mem_cut hmem
  have happ : v ++ rest = c :: t := next_append hnext
  have hinside : ∀ d ∈ v, d ∈ s := by
    intro d hd
    refine hsuffix.subset ?_
    rw [← happ]
    exact List.mem_append_left _ hd
  -- a character of the source that is no blank is not trimmed
  have hink : ∀ d ∈ v, isBlank d = false → Text.isTrimmed d = false := by
    intro d hd hblank
    cases htrim : Text.isTrimmed d with
    | false => rfl
    | true =>
        rw [h.blanks d (hinside d hd) htrim] at hblank
        cases hblank
  have hslash : '\\' ∉ c :: t := fun hm => h.noBackslash (hsuffix.subset hm)
  refine ⟨fun hm => h.noBackslash (hinside _ hm), next_text_ne_nil hnext, ?_, ?_⟩
  · intro d hd
    refine hink d (List.mem_of_head? hd) ?_
    obtain ⟨w, rfl⟩ := List.head?_eq_some_iff.1 hd
    obtain ⟨rfl, -⟩ : d = c ∧ w ++ rest = t := by simpa using happ
    exact not_isBlank_of_next hnext
  · intro d hd
    exact hink d (List.mem_of_getLast? hd) (getLast?_of_next hnext hslash d hd)

/-- **Runs of a plain source.** A closed run has its tokens again on its own. The run is a stretch
of the pieces of the source, and such a stretch keeps its pieces out of context. -/
theorem Plain.cuts (h : Plain s) (hwords : words s = some all) {run : List Token}
    (hrun : run <:+: all) (hclosed : ClosedRun run) : Cuts (concat run) (run.map unplaced) := by
  obtain ⟨before, behind, hall⟩ := hrun
  have hmap := words_map_unplaced hwords h.noComments
  rw [← hall, List.map_append, List.map_append, List.append_assoc] at hmap
  -- the run was cut from the pieces `qs`, which stand behind `ps`
  obtain ⟨ps, qsrs, hpieces, -, hqsrs⟩ := List.map_eq_append_iff.1 hmap.symm
  obtain ⟨qs, rs, rfl, hqs, -⟩ := List.map_eq_append_iff.1 hqsrs
  obtain ⟨r, hr, hcut⟩ := exists_cut_of_append hpieces
  obtain ⟨x, rfl, -⟩ := exists_cut_of_append (congrArg Cut.pieces hcut)
  have hslash : '\\' ∉ qs.flatMap Piece.text ++ x := fun hm => h.noBackslash (by
    rw [hr]
    exact List.mem_append_right _ hm)
  have hwhole : ∀ q ∈ qs, q.IsWhole := fun q hq => isWhole_of_mem_cut h.noComments (by
    rw [hpieces]
    exact List.mem_append_right _ (List.mem_append_left _ hq))
  have hcloses : Closes [] (qs.map Piece.token) := by
    rw [hqs]
    exact (Grammar.closedRun_map_unplaced run).2 hclosed
  have hsqueezed := cut_squeezed (congrArg Cut.pieces hcut) hslash hwhole hcloses
  rw [squeezed_eq_concat hwhole, hqs, concat_map_unplaced] at hsqueezed
  refine ⟨by rw [hsqueezed], ?_, ?_⟩
  · intro w hw
    rw [hsqueezed] at hw
    obtain ⟨q, hq, he⟩ := List.mem_map.1 hw
    have := hwhole q hq
    cases q with
    | blanks v => cases he
    | comment v => exact this
    | lexeme k v => cases he
  · rw [hsqueezed, List.map_map, ← hqs]
    exact List.map_congr_left fun q _ => q.token_squeeze

/-- No backslash is in the text of a run of a plain source. -/
theorem Plain.not_mem_concat (h : Plain s) (hwords : words s = some all) {run : List Token}
    (hrun : ∀ t ∈ run, t ∈ all) : '\\' ∉ concat run := by
  intro hm
  obtain ⟨t, ht, hmem⟩ := List.mem_flatMap.1 hm
  by_cases hk : t.kind = .whitespace
  · rw [(genuine_of_mem_words hwords t (hrun t ht)).space_value hk] at hmem
    simp at hmem
  · exact (h.value_of_mem hwords (hrun t ht) hk).1 hmem

/-- A run that starts and ends with no gap has nothing to trim: its first and its last token have
ink at their outer ends. -/
theorem Plain.trim_concat (h : Plain s) (hwords : words s = some all) {run : List Token}
    (hrun : ∀ t ∈ run, t ∈ all) (hhead : ∀ t ∈ run.head?, t.kind ≠ .whitespace)
    (hlast : ∀ t ∈ run.getLast?, t.kind ≠ .whitespace) : Text.trim (concat run) = concat run := by
  refine Text.trim_eq_self ?_ ?_
  · -- the first character is that of the first token, which is no blank
    intro c hc
    cases run with
    | nil => cases hc
    | cons t us =>
        obtain ⟨-, hne, hink, -⟩ := h.value_of_mem hwords (hrun t List.mem_cons_self) (hhead t rfl)
        obtain ⟨d, v, hv⟩ := List.exists_cons_of_ne_nil hne
        rw [concat_cons, hv] at hc
        exact hink c (by rw [hv]; exact hc)
  · -- and the last one that of the last token
    intro c hc
    rcases List.eq_nil_or_concat run with rfl | ⟨front, u, rfl⟩
    · cases hc
    · rw [List.concat_eq_append] at hc hlast hrun
      obtain ⟨-, hne, -, hink⟩ := h.value_of_mem hwords (hrun u (by simp)) (hlast u (by simp))
      have hvalue := List.getLast?_eq_some_getLast hne
      refine hink c ?_
      rw [hvalue]
      simpa [concat, List.getLast?_append, hvalue] using hc

/-- A closed run that starts and ends with no gap is a clean text, with the tokens of the run.
Without a backslash no token of the run is cut differently when the text stands alone. -/
theorem Plain.clean (h : Plain s) (hwords : words s = some all) {run : List Token}
    (hrun : run <:+: all) (hclosed : ClosedRun run) (hne : run ≠ [])
    (hhead : ∀ t ∈ run.head?, t.kind ≠ .whitespace)
    (hlast : ∀ t ∈ run.getLast?, t.kind ≠ .whitespace) :
    ∃ ts, Clean (concat run) ts ∧ ts.map unplaced = run.map unplaced := by
  have hsub : ∀ t ∈ run, t ∈ all := fun t ht => hrun.subset ht
  -- without a backslash the run does not end with one
  have hend : ∀ t ∈ (run.map unplaced).getLast?, ¬(t.kind = .delim ∧ t.value = ['\\']) := by
    intro t ht hbad
    rw [List.getLast?_map] at ht
    obtain ⟨u, hu, rfl⟩ := Option.map_eq_some_iff.1 ht
    have hvalue : u.value = ['\\'] := hbad.2
    refine h.not_mem_concat hwords hsub (List.mem_flatMap.2 ⟨u, List.mem_of_getLast? hu, ?_⟩)
    simp [hvalue]
  obtain ⟨ts, hreads, hmap⟩ := (h.cuts hwords hrun hclosed).readsAs
    ((Grammar.closedRun_map_unplaced run).2 hclosed) hend
  refine ⟨ts, { toReadsAs := hreads, ne_nil := ?_, trimmed := ?_, concat_eq := ?_ }, hmap⟩
  · obtain ⟨t, us, rfl⟩ := List.exists_cons_of_ne_nil hne
    have hvalue := (h.value_of_mem hwords (hsub t List.mem_cons_self) (hhead t rfl)).2.1
    simp [concat_cons, hvalue]
  · exact h.trim_concat hwords hsub hhead hlast
  · rw [← concat_map_unplaced, hmap, concat_map_unplaced]

end Words

/-! ### Runs without their ends -/

/-- The front of tokens without a comma outside groups has none either. -/
theorem CommaFree.left {depth : Nat} {ts us : List Token} (h : CommaFree depth (ts ++ us)) :
    CommaFree depth ts := by
  induction ts generalizing depth with
  | nil => trivial
  | cons t ts ih => exact ⟨h.1, ih h.2⟩

/-- The back of tokens without a comma outside groups has none either, if no bracket stands in
front. -/
theorem CommaFree.right {depth : Nat} {ts us : List Token} (h : CommaFree depth (ts ++ us))
    (hts : ∀ t ∈ ts, NoBracket t) : CommaFree depth us := by
  induction ts with
  | nil => exact h
  | cons t ts ih =>
      have hrest := h.2
      obtain ⟨hopen, hclose⟩ := hts t List.mem_cons_self
      rw [groupDepth, hopen, hclose] at hrest
      exact ih hrest fun u hu => hts u (List.mem_cons_of_mem _ hu)

/-- A mark of importance holds no bracket. -/
theorem noBracket_of_marksImportant {mark : List Token} (h : MarksImportant mark) :
    ∀ t ∈ mark, NoBracket t := by
  obtain ⟨bang, gap, word, gap', rfl, hbang, hgap, hword, hgap'⟩ := h
  intro t ht
  simp only [List.mem_cons, List.mem_append] at ht
  rcases ht with rfl | ht | rfl | ht
  · simp [NoBracket, hbang.1, Kind.isOpener, Kind.isCloser, Kind.closer?]
  · exact noBracket_of_whitespace (hgap t ht)
  · simp [NoBracket, hword.1, Kind.isOpener, Kind.isCloser, Kind.closer?]
  · exact noBracket_of_whitespace (hgap' t ht)

/-- A run without its outer gaps. -/
def core (run : List Token) : List Token := skipSpaceRight (skipSpace run)

/-- A run without its outer gaps starts with no gap. -/
theorem head?_core (run : List Token) : ∀ t ∈ (core run).head?, t.kind ≠ .whitespace := by
  intro t ht
  obtain ⟨g, hg, -⟩ := exists_skipSpaceRight (skipSpace run)
  refine head?_skipSpace run t ?_
  rw [hg, List.head?_append]
  exact Option.mem_def.2 (by rw [show (skipSpaceRight (skipSpace run)).head? = some t from ht]; rfl)

/-- A run without its outer gaps ends with no gap. -/
theorem getLast?_core (run : List Token) : ∀ t ∈ (core run).getLast?, t.kind ≠ .whitespace := by
  intro t ht
  rw [core, skipSpaceRight, List.getLast?_reverse] at ht
  exact head?_skipSpace _ t ht

/-- A run without its outer gaps is a stretch of the run. -/
theorem core_isInfix (run : List Token) : core run <:+: run := by
  obtain ⟨g, g', hsplit, -⟩ := exists_skipSpaces run
  exact ⟨g, g', by rw [List.append_assoc]; exact hsplit.symm⟩

/-- The outer gaps leave no trace in the text of a run. -/
theorem text_core {run : List Token} (hrun : ∀ t ∈ run, Genuine t) :
    text (core run) = text run := by
  obtain ⟨g, g', hsplit, hg, hg'⟩ := exists_skipSpaces run
  rw [hsplit] at hrun
  refine ((congrArg text hsplit).trans ?_).symm
  exact text_gaps _ (fun t ht => hrun t (by simp [ht])) hg (fun t ht => hrun t (by simp [ht])) hg'

/-- There are no further outer gaps once they are taken off. -/
theorem core_core (run : List Token) : core (core run) = core run := by
  have hright : skipSpaceRight (core run) = core run := by
    rw [skipSpaceRight, skipSpace_eq_self, List.reverse_reverse]
    intro t ht
    rw [List.head?_reverse] at ht
    exact getLast?_core run t ht
  rw [core, skipSpace_eq_self (head?_core run), hright]

/-- The outer gaps make no difference to the value and the mark that are read from a run. -/
theorem splitImportant_core (run : List Token) :
    splitImportant (core run) = splitImportant run := by
  have h := core_core run
  unfold core at h ⊢
  rw [splitImportant, h]
  rfl

/-- A mark of importance at the end is found, whatever gaps are inside it. The gaps are skipped from
both sides, and the exclamation mark stops each skipping. -/
theorem splitImportant_of_endsImportant {ts : List Token} (h : EndsImportant ts) :
    (splitImportant ts).2 = true := by
  obtain ⟨front, bang, gap, word, rfl, hbang, hgap, hword⟩ := h
  have hink : bang.kind ≠ .whitespace := by
    rw [hbang.1]
    decide
  -- the exclamation mark stops each skipping of gaps
  have houter : skipSpaceRight (skipSpace (front ++ bang :: (gap ++ [word])))
      = (skipSpace front ++ bang :: gap) ++ [word] := by
    rw [skipSpace_append hink, ← List.cons_append, ← List.append_assoc,
      skipSpaceRight_append (by rw [hword.1]; decide)]
  have hinner : (skipSpaceRight (skipSpace (skipSpace front ++ bang :: gap))).reverse
      = bang :: (skipSpace (skipSpace front)).reverse := by
    rw [skipSpace_append hink, skipSpaceRight, List.reverse_reverse, List.reverse_append,
      List.reverse_cons, List.append_assoc, List.singleton_append]
    exact Grammar.skipSpace_append_cons (fun t ht => hgap t (List.mem_reverse.1 ht)) hink
  simp only [splitImportant, houter, List.reverse_append, List.reverse_singleton,
    List.singleton_append]
  rw [if_pos hword]
  simp only [List.reverse_reverse, hinner]
  rw [if_pos hbang]

section Texts

variable {s : Text} {all : List Token}

/-- The text of a closed run of a plain source is clean, if there is any, and its tokens are those
of the run without the outer gaps. -/
theorem Plain.exists_clean (h : Plain s) (hwords : words s = some all) {run : List Token}
    (hrun : run <:+: all) (hclosed : ClosedRun run) (hne : text run ≠ []) :
    ∃ ts, Clean (text run) ts ∧ ts.map unplaced = (core run).map unplaced := by
  have htext : text (core run) = text run :=
    text_core fun t ht => genuine_of_mem_words hwords t (hrun.subset ht)
  have hinside : core run <:+: all := (core_isInfix run).trans hrun
  -- the outer gaps hold no brackets
  have hcore : ClosedRun (core run) := by
    obtain ⟨g, g', hsplit, hg, hg'⟩ := exists_skipSpaces run
    rw [hsplit] at hclosed
    refine (hclosed.right fun t ht => ?_).left fun t ht => ?_
    · exact noBracket_of_whitespace (hg t ht)
    · exact noBracket_of_whitespace (hg' t ht)
  have hsome : core run ≠ [] := by
    intro hnil
    rw [← htext, hnil] at hne
    exact hne rfl
  obtain ⟨ts, hclean, hmap⟩ :=
    h.clean hwords hinside hcore hsome (head?_core run) (getLast?_core run)
  have hconcat : text (core run) = concat (core run) := by
    rw [← hclean.text_eq, ← text_map_unplaced, ← hmap, text_map_unplaced]
  rw [← htext, hconcat]
  exact ⟨ts, hclean, hmap⟩

/-- What a run of a plain source declares is safe. The value is the text of the run, or of the run
in front of a mark of importance; in the first case no mark is at its end, or it would have been
found. -/
theorem Plain.safe_declaration (h : Plain s) (hwords : words s = some all) {property : Token}
    (hproperty : property ∈ all) (hk : property.kind = .ident) {run : List Token}
    (hrun : run <:+: all) (hclosed : ClosedRun run) :
    ∀ d ∈ Grammar.declared property.value run, safe.declaration d := by
  intro d hd
  rw [Grammar.declared] at hd
  split at hd
  · cases hd
  rename_i hne
  rw [List.mem_singleton.1 hd]
  refine ⟨hk ▸ isSingle_of_mem_words hwords hproperty (by simp [hk]), ?_⟩
  show ∃ ts, Clean (splitImportant run).1 ts ∧ ((splitImportant run).2 = false → ¬EndsImportant ts)
  rcases splitImportant_cases run with ⟨g, value, g', hsplit, hg, hg', hs⟩ |
    ⟨g, value, mark, hsplit, hg, hmark, hs⟩
  · -- the text is that of the whole run, which has no mark at its end
    have htext : text run = (splitImportant run).1 := by
      have hgenuine : ∀ t ∈ run, Genuine t := fun t ht =>
        genuine_of_mem_words hwords t (hrun.subset ht)
      rw [hs, hsplit]
      rw [hsplit] at hgenuine
      exact text_gaps _ (fun t ht => hgenuine t (by simp [ht])) hg
        (fun t ht => hgenuine t (by simp [ht])) hg'
    obtain ⟨ts, hclean, hmap⟩ := h.exists_clean hwords hrun hclosed (by rwa [htext])
    rw [← htext]
    refine ⟨ts, hclean, ?_⟩
    intro hfalse hends
    have htrue := splitImportant_of_endsImportant hends
    rw [← Parser.splitImportant_map_unplaced, hmap, Parser.splitImportant_map_unplaced,
      splitImportant_core, hfalse] at htrue
    cases htrue
  · -- the mark holds no bracket, so the value in front of it is closed
    rw [hs] at hne ⊢
    have hvalue : ClosedRun value := by
      rw [hsplit] at hclosed
      exact (hclosed.right fun t ht => noBracket_of_whitespace (hg t ht)).left
        (noBracket_of_marksImportant hmark)
    have hinside : value <:+: all := List.IsInfix.trans ⟨g, mark, by rw [hsplit]; simp⟩ hrun
    obtain ⟨ts, hclean, -⟩ := h.exists_clean hwords hinside hvalue hne
    exact ⟨ts, hclean, by simp⟩

/-- The head of an at-rule of a plain source is safe. Its name is a token of the source, and its
prelude is a run without the gaps around it. -/
theorem Plain.safe_head (h : Plain s) (hwords : words s = some all) {keyword : Token}
    (hkeyword : keyword ∈ all) (hk : keyword.kind = .atKeyword) {pre : List Token}
    (hpre : pre <:+: all) (hclosed : ClosedRun pre) : (Grammar.atHead keyword pre).Safe := by
  refine ⟨?_, ?_⟩
  · have hsingle := isSingle_of_mem_words hwords hkeyword (by simp [hk])
    rw [← cons_atName (genuine_of_mem_words hwords keyword hkeyword) hk, hk] at hsingle
    exact hsingle
  · by_cases hne : text pre = []
    · exact .inl hne
    · obtain ⟨ts, hclean, -⟩ := h.exists_clean hwords hpre hclosed hne
      exact .inr ⟨ts, hclean⟩

end Texts

/-! ### Selectors -/

/-- While a group is open, no closing bracket of another form than that of the innermost group
stands among the tokens; `groups` are open at the start. -/
def Matched (groups : List Kind) : List Token → Prop
  | [] => True
  | t :: ts =>
    (t.kind.isCloser = true → ∀ g ∈ groups.head?, g.closer? = some t.kind) ∧
      Matched (openAfter groups t.kind) ts

/-- Whether the brackets match can be computed. -/
def Matched.decide (groups : List Kind) : (ts : List Token) → Decidable (Matched groups ts)
  | [] => inferInstanceAs (Decidable True)
  | t :: ts =>
    have := Matched.decide (openAfter groups t.kind) ts
    inferInstanceAs (Decidable (_ ∧ _))

instance (groups : List Kind) (ts : List Token) : Decidable (Matched groups ts) :=
  Matched.decide groups ts

/-- Where brackets match, to count them is to follow them. The parser follows them to find the end
of a run, and the selectors are divided by a count. -/
theorem groupDepth_eq_length {groups : List Kind} {t : Token}
    (h : t.kind.isCloser = true → ∀ g ∈ groups.head?, g.closer? = some t.kind) :
    groupDepth groups.length t = (openAfter groups t.kind).length := by
  cases hopen : t.kind.isOpener with
  | true => simp [groupDepth, openAfter, hopen]
  | false =>
      cases hclose : t.kind.isCloser with
      | false =>
          rw [Grammar.openAfter_of_noBracket ⟨hopen, hclose⟩, groupDepth, hopen, hclose]
          rfl
      | true =>
          cases groups with
          | nil => simp [groupDepth, openAfter, hopen]
          | cons g gs =>
              have hg : g.closer? = some t.kind := h hclose g rfl
              simp [groupDepth, openAfter, hopen, hclose, hg]

/-- The runs between commas of a closed run are closed, if its brackets match. The first run may
close groups that were open before it, and the induction carries these along; all others start with
none. -/
theorem closes_splitAtCommas {groups : List Kind} {ts run : List Token} {runs : List (List Token)}
    (hclosed : Closes groups ts) (hmatched : Matched groups ts)
    (h : splitAtCommas groups.length ts = run :: runs) :
    (run <+: ts ∧ Closes groups run ∧ CommaFree groups.length run) ∧
      ∀ r ∈ runs, r <:+: ts ∧ ClosedRun r ∧ CommaFree 0 r := by
  induction ts generalizing groups run runs with
  | nil =>
      cases h
      exact ⟨⟨List.nil_prefix, hclosed, trivial⟩, by simp⟩
  | cons t ts ih =>
      obtain ⟨hclosed₁, hclosed₂, hclosed₃, hclosed₄, hrest⟩ := hclosed
      obtain ⟨hmatch, hmatched⟩ := hmatched
      obtain ⟨next, others, hnext⟩ := List.exists_cons_of_ne_nil
        (splitAtCommas_ne_nil (openAfter groups t.kind).length ts)
      obtain ⟨⟨hfront, hcloses, hcomma⟩, hothers⟩ := ih hrest hmatched hnext
      have hbehind : ∀ r ∈ others, r <:+: t :: ts ∧ ClosedRun r ∧ CommaFree 0 r := fun r hr =>
        ⟨(hothers r hr).1.trans (List.suffix_cons t ts).isInfix, (hothers r hr).2⟩
      rw [splitAtCommas] at h
      split at h
      · -- a comma outside groups ends the first run
        rename_i hsplit
        obtain rfl : groups = [] := List.length_eq_zero_iff.1 hsplit.2
        have hnone : openAfter [] t.kind = [] := by
          rw [hsplit.1]
          rfl
        rw [hnone] at hnext hcloses hcomma
        rw [show splitAtCommas 0 ts = next :: others from hnext] at h
        cases h
        refine ⟨⟨List.nil_prefix, rfl, trivial⟩, ?_⟩
        intro r hr
        rcases List.mem_cons.1 hr with rfl | hr
        · exact ⟨hfront.isInfix.trans (List.suffix_cons t ts).isInfix, hcloses, hcomma⟩
        · exact hbehind r hr
      · -- any other token goes to the front of it
        rename_i hsplit
        rw [groupDepth_eq_length hmatch, hnext] at h
        cases h
        refine ⟨⟨List.cons_prefix_cons.2 ⟨rfl, hfront⟩,
          ⟨hclosed₁, hclosed₂, hclosed₃, hclosed₄, hcloses⟩, hsplit, ?_⟩, hbehind⟩
        rw [groupDepth_eq_length hmatch]
        exact hcomma

end CssHints.Token

namespace CssHints

open Token (words words_eq_some_iff splitSelectors Clean CommaFree Plain Matched)
open Grammar (ClosedRun)

/-- The texts of a tree that can be written, whatever its first selectors start with. -/
def safeTexts : Parts :=
  { safe with selectors := fun ss => ∀ s ∈ ss, ∃ ts, Clean s ts ∧ CommaFree 0 ts }

/-- The selectors of a rule of a plain source are clean and without commas outside groups. Each is a
run between commas without the gaps around it, and the groups of the prelude are matched, so that
none is cut in two. -/
theorem Token.Plain.clean_selectors {s : Text} {all : List Token} (h : Plain s)
    (hwords : words s = some all) {pre : List Token} (hpre : pre <:+: all)
    (hclosed : ClosedRun pre) (hmatched : Matched [] pre) :
    safeTexts.selectors (splitSelectors pre) := by
  intro sel hsel
  obtain ⟨hne, run, hrun, rfl⟩ := mem_splitSelectors hsel
  -- the selector is the text of a run between commas
  have hsegment : run <:+: pre ∧ ClosedRun run ∧ CommaFree 0 run := by
    obtain ⟨first, others, hsplit⟩ := List.exists_cons_of_ne_nil (splitAtCommas_ne_nil 0 pre)
    obtain ⟨⟨hfront, hfirst⟩, hothers⟩ := closes_splitAtCommas hclosed hmatched hsplit
    rw [hsplit] at hrun
    rcases List.mem_cons.1 hrun with rfl | hrun
    · exact ⟨hfront.isInfix, hfirst⟩
    · exact hothers run hrun
  obtain ⟨hinside, hcloses, hcomma⟩ := hsegment
  obtain ⟨ts, hclean, hmap⟩ := h.exists_clean hwords (hinside.trans hpre) hcloses hne
  refine ⟨ts, hclean, ?_⟩
  -- it has the tokens of the run without the gaps around it
  rw [← commaFree_map_unplaced, hmap, commaFree_map_unplaced]
  obtain ⟨g, g', hgaps, hg, -⟩ := exists_skipSpaces run
  rw [hgaps] at hcomma
  exact (hcomma.right fun t ht => Grammar.noBracket_of_whitespace (hg t ht)).left

/-- The parts of the tree of a plain source are safe, but for what its first selectors start
with. -/
theorem Token.Plain.each_safeTexts {s : Text} {sheet : Stylesheet} (h : Plain s)
    (hread : Stylesheet.ofSource s = .ok sheet)
    (hmatched : ∀ pre ∈ Stylesheet.rulePreludes s, Matched [] pre) :
    Stylesheet.Each safeTexts sheet := by
  obtain ⟨all, hwords, -⟩ := ofSource_eq_ok_iff.1 hread
  refine each_of_ofSource hwords hread ⟨?_, ?_, ?_, ?_⟩
  · exact fun pre hmem hpre hclosed => h.clean_selectors hwords hpre hclosed (hmatched pre hmem)
  · exact fun _ hmem hk _ hrun hclosed => h.safe_declaration hwords hmem hk hrun hclosed
  · exact fun _ hmem hk _ hpre hclosed => h.safe_head hwords hmem hk hpre hclosed
  · exact fun _ hmem hk _ hpre hclosed => h.safe_head hwords hmem hk hpre hclosed

/-! ### Whole trees -/

mutual

/-- What is known of the selectors of each rule that a walk finds in a node may be added to a
property of its parts. -/
theorem Node.Each.of_walk {p : Parts} {q : List Text → Prop} (parents : List AtHead) :
    (n : Node) → n.Each p →
      (∀ e ∈ n.walk parents, p.selectors e.2.selectors → q e.2.selectors) →
      n.Each { p with selectors := q }
  | .rule r, hn, h => ⟨h (parents, r) (by simp [Node.walk]) hn.1, hn.2⟩
  | .block head children _, hn, h =>
    ⟨hn.1, hn.2.1, Stylesheet.Each.of_walkBelow (parents ++ [head]) children hn.2.2 h⟩
  | .statement _, hn, _ => hn
  | .stray _, _, _ => trivial

/-- What is known of the selectors of each rule that a walk finds in a tree may be added to a
property of its parts. -/
theorem Stylesheet.Each.of_walkBelow {p : Parts} {q : List Text → Prop} (parents : List AtHead) :
    (ns : List Node) → Stylesheet.Each p ns →
      (∀ e ∈ Stylesheet.walkBelow parents ns, p.selectors e.2.selectors → q e.2.selectors) →
      Stylesheet.Each { p with selectors := q } ns
  | [], _, _ => trivial
  | n :: ns, hns, h =>
    ⟨Node.Each.of_walk parents n hns.1 fun e he =>
        h e (by rw [Stylesheet.walkBelow]; exact List.mem_append_left _ he),
      Stylesheet.Each.of_walkBelow parents ns hns.2 fun e he =>
        h e (by rw [Stylesheet.walkBelow]; exact List.mem_append_right _ he)⟩

end

/-- A text that starts with a keyword starts with its sign. -/
theorem Token.Clean.head?_of_atKeyword {s : Text} {ts : List Token} (h : Clean s ts) {t : Token}
    (ht : t ∈ ts.head?) (hk : t.kind = .atKeyword) : s.head? = some '@' := by
  obtain ⟨us, rfl⟩ := List.head?_eq_some_iff.1 ht
  have hgenuine := genuine_of_mem_words h.words_eq t List.mem_cons_self
  rw [← h.concat_eq, concat_cons, ← cons_atName hgenuine hk]
  rfl

/-- **Plain sources give trees that can be written.** Two conditions remain on the rules: no first
selector starts with `@`, and the brackets in the preludes of rules match. -/
theorem renderSafe_of_plain (css : Text) (sheet : Stylesheet) (h : Plain css)
    (hread : Stylesheet.ofSource css = .ok sheet)
    (hat : ∀ r ∈ sheet.rules, ∀ s ∈ r.selectors.head?, s.head? ≠ some '@')
    (hmatched : ∀ pre ∈ Stylesheet.rulePreludes css, Matched [] pre) : sheet.RenderSafe := by
  refine ⟨fits_of_ofSource hread, ?_⟩
  refine Stylesheet.Each.of_walkBelow [] sheet (h.each_safeTexts hread hmatched) ?_
  intro e he hclean
  refine ⟨hclean, ?_⟩
  -- a keyword at the start of a first selector would put its sign there
  intro s hs ts hwords t ht hk
  obtain ⟨us, hus, -⟩ := hclean s (List.mem_of_head? hs)
  cases hwords.symm.trans hus.words_eq
  exact hat e.2 (List.mem_map.2 ⟨e, he, rfl⟩) s hs (hus.head?_of_atKeyword ht hk)

/-- Two selectors, the first with a comma in a group, which is matched; so the source meets the
hypotheses, and its tree is safe. -/
theorem renderSafe_of_plain_group :
    Stylesheet.ofSource "x(,),y\x7b\x7d" = .ok [.rule ⟨["x(,)", "y"], []⟩] ∧
      Stylesheet.RenderSafe [.rule ⟨["x(,)", "y"], []⟩] := by
  have hcut : Token.cut "x(,),y\x7b\x7d" = ⟨[.lexeme .ident ['x'], .lexeme .lparen ['('],
      .lexeme .comma [','], .lexeme .rparen [')'], .lexeme .comma [','], .lexeme .ident ['y'],
      .lexeme .lbrace ['\x7b'], .lexeme .rbrace ['\x7d']], none⟩ := by
    show Token.cut ['x', '(', ',', ')', ',', 'y', '\x7b', '\x7d'] = _
    rw [Token.cut_cons_of_next (show Token.next 'x' ['(', ',', ')', ',', 'y', '\x7b', '\x7d']
        = .ok (.lexeme .ident ['x'], _) from rfl),
      Token.cut_cons_of_next (Token.next_lparen _),
      Token.cut_cons_of_next (Token.next_mark (by decide) _),
      Token.cut_cons_of_next (Token.next_mark (by decide) _),
      Token.cut_cons_of_next (Token.next_mark (by decide) _),
      Token.cut_cons_of_next (show Token.next 'y' ['\x7b', '\x7d']
        = .ok (.lexeme .ident ['y'], _) from rfl),
      Token.cut_cons_of_next (Token.next_mark (by decide) _),
      Token.cut_cons_of_next (Token.next_mark (by decide) _), Token.cut_nil]
    rfl
  have hwords : words "x(,),y\x7b\x7d" = some ([⟨.ident, ['x'], ⟨0, 1, 1⟩⟩,
      ⟨.lparen, ['('], ⟨1, 1, 2⟩⟩, ⟨.comma, [','], ⟨2, 1, 3⟩⟩, ⟨.rparen, [')'], ⟨3, 1, 4⟩⟩,
      ⟨.comma, [','], ⟨4, 1, 5⟩⟩, ⟨.ident, ['y'], ⟨5, 1, 6⟩⟩] ++
      ⟨.lbrace, ['\x7b'], ⟨6, 1, 7⟩⟩ :: ([] ++ ⟨.rbrace, ['\x7d'], ⟨7, 1, 8⟩⟩ :: [])) := by
    rw [words_eq_some_iff, hcut]
    exact ⟨rfl, rfl⟩
  have hread : Stylesheet.ofSource "x(,),y\x7b\x7d" = .ok [.rule ⟨["x(,)", "y"], []⟩] :=
    ofSource_eq_ok_iff.2 ⟨_, hwords, .rule (by decide) (by decide) (by decide) rfl .nil rfl .nil⟩
  have hplain : Plain "x(,),y\x7b\x7d" := by
    show Plain ['x', '(', ',', ')', ',', 'y', '\x7b', '\x7d']
    refine ⟨by decide, by simp [List.infix_cons_iff, List.prefix_cons_iff], ?_⟩
    intro c hc
    simp only [List.mem_cons, List.not_mem_nil, or_false] at hc
    rcases hc with rfl | rfl | rfl | rfl | rfl | rfl | rfl | rfl <;> decide
  refine ⟨hread, renderSafe_of_plain _ _ hplain hread ?_ ?_⟩
  · intro r hr
    obtain rfl : r = ⟨["x(,)", "y"], []⟩ := by
      simpa [Stylesheet.rules, Stylesheet.walk, Stylesheet.walkBelow, Node.walk] using hr
    decide
  · -- the run of the parser in two steps: the prelude with the brace, and the closing brace
    have hpres : Stylesheet.rulePreludes "x(,),y\x7b\x7d" = [[⟨.ident, ['x'], ⟨0, 1, 1⟩⟩,
        ⟨.lparen, ['('], ⟨1, 1, 2⟩⟩, ⟨.comma, [','], ⟨2, 1, 3⟩⟩, ⟨.rparen, [')'], ⟨3, 1, 4⟩⟩,
        ⟨.comma, [','], ⟨4, 1, 5⟩⟩, ⟨.ident, ['y'], ⟨5, 1, 6⟩⟩]] := by
      rw [Stylesheet.rulePreludes, hwords]
      refine (Parser.rulePreludes_cons_of_step rfl).trans ?_
      refine (congrArg (List.append _) (Parser.rulePreludes_cons_of_step rfl)).trans ?_
      rw [Parser.rulePreludes]
      rfl
    rw [hpres]
    decide

end CssHints
