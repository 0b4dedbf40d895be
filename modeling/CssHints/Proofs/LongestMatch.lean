import CssHints.Proofs.Numerals

/-!
# `CssHints.Proofs.LongestMatch`: numbers are read as far as their grammar goes

A number is read by its numeral, and a percent sign or a unit behind it. Numerals have a grammar
(`Numeral`): an optional sign, digits with an optional fraction or a fraction alone, and an optional
exponent. The tokenizer knows this grammar only by a test on the first characters
(`startsNumber`) and by readers for the parts, each of which takes as much as it can.

`readNumber_longest` says that the test and the readers fit the grammar: a number starts where some
numeral does, and the longest one is read. The readers might have failed to find it, since a part
that takes as much as it can may leave too little for the next. But a numeral that some text goes on
with is a front part of a longer numeral (`IsNumeral.exists_longer`), so one that cannot be made
longer is where the readers stop (`IsNumeral.takeNumeral_eq`).
-/

set_option autoImplicit false

namespace CssHints.Token

open Text (isDigit startsDigit)

/-! ### The longest match -/

/-- The text `m` is the longest one with the property `p` that `s` starts with. -/
structure IsLongest (p : Text → Prop) (s m : Text) : Prop where
  starts : m <+: s
  holds : p m
  le : ∀ n, n <+: s → p n → n.length ≤ m.length

/-- There is at most one longest match. -/
theorem IsLongest.eq {p : Text → Prop} {s m n : Text} (hm : IsLongest p s m)
    (hn : IsLongest p s n) : m = n := by
  have hlength : m.length = n.length :=
    Nat.le_antisymm (hn.le m hm.starts hm.holds) (hm.le n hn.starts hn.holds)
  have hfront := List.prefix_of_prefix_length_le hm.starts hn.starts (Nat.le_of_eq hlength)
  exact hfront.eq_of_length hlength

/-- A reader takes the longest match if it takes a match, and whatever match a text starts with is
taken and perhaps more. -/
theorem isLongest_of_reader {p : Text → Prop} {f : Text → Text × Text}
    (happend : ∀ s, (f s).1 ++ (f s).2 = s) (hreach : ∀ m y, p m → m <+: (f (m ++ y)).1) {s : Text}
    (hs : p (f s).1) : IsLongest p s (f s).1 := by
  refine ⟨⟨(f s).2, happend s⟩, hs, ?_⟩
  rintro n ⟨y, rfl⟩ hn
  exact (hreach n y hn).length_le

/-! ### The grammar of numerals -/

/-- Digits with an optional fraction, or a fraction alone. -/
inductive IsMantissa : Text → Prop
  | whole {ds fr : Text} : IsDigits ds → IsOptionalFraction fr → IsMantissa (ds ++ fr)
  | fraction {ds : Text} : IsDigits ds → IsMantissa ('.' :: ds)

/-- A numeral, as `[+-]?(D+(.D+)?|.D+)([eE][+-]?D+)?` with digits `D` of any script. -/
inductive Numeral : Text → Prop
  | parts {sg man ex : Text} :
      IsOptionalSign sg → IsMantissa man → IsOptionalExponent ex → Numeral (sg ++ (man ++ ex))

/-- The numerals are the texts of the four parts that the reader takes, some of which may be
empty. -/
theorem numeral_iff {m : Text} :
    Numeral m ↔ ∃ sg wh fr ex, m = sg ++ (wh ++ (fr ++ ex)) ∧ IsNumeral sg wh fr ex := by
  constructor
  · rintro ⟨hsg, hman, hex⟩
    cases hman with
    | whole hds hfr => exact ⟨_, _, _, _, by simp, hsg, hds.2, hfr, hex, .inl hds.1⟩
    | fraction hds =>
        exact ⟨_, [], _, _, rfl, hsg, by simp, .inr ⟨_, rfl, hds⟩, hex, .inr (by simp)⟩
  · rintro ⟨sg, wh, fr, ex, rfl, hn⟩
    rw [← List.append_assoc wh]
    refine .parts hn.sign ?_ hn.exponent
    -- without whole digits there has to be a fraction
    by_cases hwh : wh = []
    · subst hwh
      rcases hn.fraction with rfl | ⟨ds, rfl, hds⟩
      · exact absurd rfl (hn.ne_nil.resolve_left (by simp))
      · exact .fraction hds
    · exact .whole ⟨hwh, hn.whole⟩ hn.fraction

/-- Digits with a further digit are digits. -/
theorem isDigit_snoc {ds : Text} (h : ∀ c ∈ ds, isDigit c = true) {d : Char}
    (hd : isDigit d = true) : ∀ c ∈ ds ++ [d], isDigit c = true :=
  List.forall_mem_append.2 ⟨h, by simpa using hd⟩

/-- A run of digits can take a further digit. -/
theorem IsDigits.snoc {ds : Text} (h : IsDigits ds) {d : Char} (hd : isDigit d = true) :
    IsDigits (ds ++ [d]) := ⟨by simp, isDigit_snoc h.2 hd⟩

/-- A digit is a run of digits. -/
theorem isDigits_singleton {d : Char} (hd : isDigit d = true) : IsDigits [d] :=
  ⟨by simp, by simpa using hd⟩

/-- A fraction that is there can take a further digit. -/
theorem IsOptionalFraction.snoc {fr : Text} (h : IsOptionalFraction fr) (hne : fr ≠ []) {d : Char}
    (hd : isDigit d = true) : IsOptionalFraction (fr ++ [d]) := by
  obtain ⟨ds, rfl, hds⟩ := h.resolve_left hne
  exact .inr ⟨ds ++ [d], rfl, hds.snoc hd⟩

/-- An exponent that is there can take a further digit. -/
theorem IsOptionalExponent.snoc {ex : Text} (h : IsOptionalExponent ex) (hne : ex ≠ []) {d : Char}
    (hd : isDigit d = true) : IsOptionalExponent (ex ++ [d]) := by
  obtain ⟨e, sg, ds, rfl, he, hsg, hds⟩ := h.resolve_left hne
  exact .inr ⟨e, sg, ds ++ [d], by simp, he, hsg, hds.snoc hd⟩

/-- A text that passes the test for a digit has one in front. -/
theorem exists_of_startsDigit {y : Text} (h : startsDigit y = true) :
    ∃ d z, y = d :: z ∧ isDigit d = true := by
  cases y with
  | nil => cases h
  | cons d z => exact ⟨d, z, rfl, h⟩

/-- What a text that starts with an exponent has at its start: a mark, an optional sign and one
digit at least. -/
theorem exists_exponent {y : Text} (h : startsExponent y = true) :
    ∃ ex z, y = ex ++ z ∧ ex ≠ [] ∧ IsOptionalExponent ex := by
  cases y with
  | nil => cases h
  | cons e s =>
      simp only [startsExponent, Bool.and_eq_true, Bool.or_eq_true, decide_eq_true_eq] at h
      obtain ⟨d, z, hz, hd⟩ := exists_of_startsDigit h.2
      have hsign : IsOptionalSign (takeSign s).1 :=
        of_takeSign (y := (takeSign s).2) (by rw [takeSign_append])
      have happ := takeSign_append s
      rw [hz] at happ
      refine ⟨e :: ((takeSign s).1 ++ [d]), z, ?_, by simp, ?_⟩
      · rw [List.cons_append, List.append_assoc, List.singleton_append, happ]
      · exact .inr ⟨e, _, [d], rfl, h.1, hsign, isDigits_singleton hd⟩

section Parts

variable {sg wh fr ex y : Text}

/-- A numeral that the text behind it goes on with is a front part of a longer one. There are three
ways to go on: a digit for the last part, a fraction behind whole digits, or an exponent. -/
theorem IsNumeral.exists_longer (hn : IsNumeral sg wh fr ex) (hy : ¬Stops fr ex y) :
    ∃ x z wh' fr' ex', y = x ++ z ∧ x ≠ [] ∧
      sg ++ (wh ++ (fr ++ ex)) ++ x = sg ++ (wh' ++ (fr' ++ ex')) ∧ IsNumeral sg wh' fr' ex' := by
  by_cases hdigit : startsDigit y = true
  · -- a digit belongs to the last part that is there
    obtain ⟨d, z, rfl, hd⟩ := exists_of_startsDigit hdigit
    by_cases hex : ex = []
    · subst hex
      by_cases hfr : fr = []
      · subst hfr
        exact ⟨[d], z, wh ++ [d], [], [], rfl, by simp, by simp, hn.sign,
          isDigit_snoc hn.whole hd, .inl rfl, .inl rfl, .inl (by simp)⟩
      · exact ⟨[d], z, wh, fr ++ [d], [], rfl, by simp, by simp, hn.sign, hn.whole,
          hn.fraction.snoc hfr hd, .inl rfl, .inr (by simp)⟩
    · exact ⟨[d], z, wh, fr, ex ++ [d], rfl, by simp, by simp, hn.sign, hn.whole, hn.fraction,
        hn.exponent.snoc hex hd, hn.ne_nil⟩
  by_cases hfraction : fr = [] ∧ ex = [] ∧ startsFraction y = true
  · obtain ⟨rfl, rfl, hstart⟩ := hfraction
    cases y with
    | nil => cases hstart
    | cons c s =>
        simp only [startsFraction, Bool.and_eq_true, decide_eq_true_eq] at hstart
        obtain ⟨rfl, hs⟩ := hstart
        obtain ⟨d, z, rfl, hd⟩ := exists_of_startsDigit hs
        exact ⟨['.', d], z, wh, ['.', d], [], rfl, by simp, by simp, hn.sign, hn.whole,
          .inr ⟨[d], rfl, isDigits_singleton hd⟩, .inl rfl, .inr (by simp)⟩
  · -- there is no other reason to go on than an exponent
    obtain ⟨rfl, hstart⟩ : ex = [] ∧ startsExponent y = true := by
      refine Classical.byContradiction fun hnone => hy ⟨by simpa using hdigit, ?_, ?_⟩
      · intro hfr hex
        exact Bool.eq_false_iff.2 fun hstart => hfraction ⟨hfr, hex, hstart⟩
      · intro hex
        exact Bool.eq_false_iff.2 fun hstart => hnone ⟨hex, hstart⟩
    obtain ⟨ex, z, rfl, hne, hex⟩ := exists_exponent hstart
    exact ⟨ex, z, wh, fr, ex, rfl, hne, by simp, hn.sign, hn.whole, hn.fraction, hex, hn.ne_nil⟩

/-- What is taken of a text that starts with a numeral starts with that numeral. A numeral that does
not end the reading can be made longer, and the text behind it gets shorter. -/
theorem IsNumeral.isPrefix_takeNumeral (hn : IsNumeral sg wh fr ex) (y : Text) :
    sg ++ (wh ++ (fr ++ ex)) <+: (takeNumeral (sg ++ (wh ++ (fr ++ ex)) ++ y)).1 := by
  -- the numeral is made longer until nothing of the text goes on with it
  induction hlength : y.length using Nat.strongRecOn generalizing wh fr ex y with
  | ind n ih =>
      by_cases hy : Stops fr ex y
      · exact ⟨[], by rw [hn.takeNumeral_eq hy, List.append_nil]⟩
      · obtain ⟨x, z, wh', fr', ex', rfl, hne, hlonger, hn'⟩ := hn.exists_longer hy
        have hshort : z.length < n := by
          have := List.length_pos_iff.2 hne
          rw [List.length_append] at hlength
          omega
        have hreach := ih z.length hshort hn' z rfl
        rw [← hlonger, List.append_assoc (sg ++ (wh ++ (fr ++ ex))) x z] at hreach
        exact (List.prefix_append _ x).trans hreach

/-- A numeral passes the test for a number, which looks at three characters at most. -/
theorem IsNumeral.startsNumber_eq (hn : IsNumeral sg wh fr ex) :
    startsNumber (sg ++ (wh ++ (fr ++ ex))) = true := by
  have hbody :
      startsDigit (wh ++ (fr ++ ex)) = true ∨ startsFraction (wh ++ (fr ++ ex)) = true := by
    cases wh with
    | cons d wh => exact .inl (hn.whole d List.mem_cons_self)
    | nil =>
        obtain ⟨ds, rfl, hds⟩ := hn.fraction.resolve_left (hn.ne_nil.resolve_left (by simp))
        obtain ⟨d, ds, rfl⟩ := List.exists_cons_of_ne_nil hds.1
        have hd := hds.2 d List.mem_cons_self
        exact .inr (by simpa [startsFraction, startsDigit] using hd)
  rcases hn.sign with rfl | ⟨c, hc, rfl⟩
  · exact startsNumber_of_unsigned hbody
  · simp [startsNumber, hc, hbody]

end Parts

/-- What is taken of a text that passes the test is a numeral. -/
theorem numeral_takeNumeral {s : Text} (h : startsNumber s = true) : Numeral (takeNumeral s).1 := by
  have htake : takeNumeral ((takeNumeral s).1 ++ (takeNumeral s).2) =
      ((takeNumeral s).1, (takeNumeral s).2) := by
    rw [takeNumeral_append]
  obtain ⟨sg, wh, fr, ex, hparts, hn, -⟩ := exists_isNumeral htake (startsNumber_takeNumeral h rfl)
  exact numeral_iff.2 ⟨sg, wh, fr, ex, hparts, hn⟩

/-- A number starts where a numeral does. -/
theorem startsNumber_iff {s : Text} : startsNumber s = true ↔ ∃ m, m <+: s ∧ Numeral m := by
  constructor
  · intro h
    exact ⟨_, ⟨_, takeNumeral_append s⟩, numeral_takeNumeral h⟩
  · rintro ⟨m, ⟨y, rfl⟩, hm⟩
    obtain ⟨sg, wh, fr, ex, rfl, hn⟩ := numeral_iff.1 hm
    exact startsNumber_append hn.startsNumber_eq y

/-- The longest numeral is taken. -/
theorem isLongest_takeNumeral {s : Text} (h : startsNumber s = true) :
    IsLongest Numeral s (takeNumeral s).1 := by
  refine isLongest_of_reader takeNumeral_append ?_ (numeral_takeNumeral h)
  intro m y hm
  obtain ⟨sg, wh, fr, ex, rfl, hn⟩ := numeral_iff.1 hm
  exact hn.isPrefix_takeNumeral y

/-! ### Units -/

/-- A run of name characters and escapes. -/
inductive NameRun : Text → Prop
  | nil : NameRun []
  | char {c : Char} {s : Text} : isNameChar c = true → NameRun s → NameRun (c :: s)
  | escape {c : Char} {s : Text} : c ≠ '\n' → NameRun s → NameRun ('\\' :: c :: s)

/-- What is taken of a text as a name is a run of name characters and escapes. -/
theorem nameRun_takeName (s : Text) : NameRun (takeName s).1 := by
  fun_induction takeName s with
  | case1 => exact .nil
  | case2 c s hc ih => exact .char hc ih
  | case3 c hc => exact .nil
  | case4 c hc d t hd ih =>
      obtain ⟨rfl, hd⟩ := hd
      exact .escape hd ih
  | case5 c hc d t hd => exact .nil

/-- What is taken of a text that starts with a run of name characters and escapes starts with that
run. -/
theorem NameRun.isPrefix_takeName {u : Text} (hu : NameRun u) (y : Text) :
    u <+: (takeName (u ++ y)).1 := by
  induction hu with
  | nil => exact ⟨_, rfl⟩
  | char hc _ ih =>
      rw [List.cons_append, takeName_cons hc]
      exact List.cons_prefix_cons.2 ⟨rfl, ih⟩
  | escape hd _ ih =>
      rw [List.cons_append, List.cons_append, takeName_escape hd]
      exact List.cons_prefix_cons.2 ⟨rfl, List.cons_prefix_cons.2 ⟨rfl, ih⟩⟩

/-- The longest run of name characters and escapes is taken. -/
theorem isLongest_takeName (s : Text) : IsLongest NameRun s (takeName s).1 :=
  isLongest_of_reader takeName_append (fun _ y hu => hu.isPrefix_takeName y) (nameRun_takeName s)

/-! ### Numbers in a source -/

/-- How a number ends whose numeral ends at the place `j` of a source, by its class and by the place
where it ends. -/
inductive NumberEnd (source : Text) (j : Nat) : Kind → Nat → Prop
  | percentage : source[j]? = some '%' → NumberEnd source j .percentage (j + 1)
  | dimension {u : Text} : source[j]? ≠ some '%' → startsIdent (source.drop j) = true →
      IsLongest NameRun (source.drop j) u → NumberEnd source j .dimension (j + u.length)
  | number : source[j]? ≠ some '%' → startsIdent (source.drop j) = false →
      NumberEnd source j .number j

/-- A front part of what a source goes on with at the place `i`, as a stretch of the source. Its
length tells where it ends. -/
theorem slice_of_append {source v rest : Text} {i : Nat} (h : v ++ rest = source.drop i)
    (hv : v ≠ []) :
    i < i + v.length ∧ i + v.length ≤ source.length ∧
      (source.drop i).take (i + v.length - i) = v ∧ source.drop (i + v.length) = rest := by
  have hpos := List.length_pos_iff.2 hv
  have hlength := congrArg List.length h
  rw [List.length_append, List.length_drop] at hlength
  refine ⟨by omega, by omega, ?_, ?_⟩
  · rw [← h]
    exact List.take_left' (by omega)
  · rw [← List.drop_drop, ← h]
    exact List.drop_left

/-- A number at the place `i` is its numeral and what belongs to the number behind it: a percent
sign, a unit, or nothing. -/
theorem exists_numberEnd {source m : Text} {i : Nat}
    (hm : takeNumeral (source.drop i) = (m, source.drop (i + m.length))) :
    ∃ kind v rest, readNumber (source.drop i) = (.lexeme kind v, rest) ∧
      NumberEnd source (i + m.length) kind (i + v.length) := by
  -- a percent sign is looked for first, and a unit only where there is none
  by_cases hsign : (source.drop (i + m.length)).head? = some '%'
  · obtain ⟨r, hr⟩ := List.head?_eq_some_iff.1 hsign
    rw [hr] at hm
    refine ⟨_, _, _, readNumber_percentage hm, ?_⟩
    rw [List.length_append, List.length_singleton, ← Nat.add_assoc]
    exact .percentage (by rw [← List.head?_drop, hr]; rfl)
  · have hplain : source[i + m.length]? ≠ some '%' := by rwa [← List.head?_drop]
    cases hident : startsIdent (source.drop (i + m.length)) with
    | true =>
        refine ⟨_, _, _, readNumber_dimension hm hsign hident rfl, ?_⟩
        rw [List.length_append, ← Nat.add_assoc]
        exact .dimension hplain hident (isLongest_takeName _)
    | false => exact ⟨_, _, _, readNumber_number hm hsign hident, .number hplain hident⟩

/-- **Numbers.** A number starts at a place of a source just if some numeral does. Then it is the
longest such numeral with a percent sign if one follows, or else with the longest run of name
characters and escapes if an identifier starts behind the numeral. It is never empty, and it ends in
the source. -/
theorem readNumber_longest (source : Text) (i : Nat) :
    (startsNumber (source.drop i) = true ↔ ∃ m, m <+: source.drop i ∧ Numeral m) ∧
      (startsNumber (source.drop i) = true →
        ∃ m kind stop, IsLongest Numeral (source.drop i) m ∧
          NumberEnd source (i + m.length) kind stop ∧ i < stop ∧ stop ≤ source.length ∧
          readNumber (source.drop i) =
            (.lexeme kind ((source.drop i).take (stop - i)), source.drop stop)) := by
  refine ⟨startsNumber_iff, fun h => ?_⟩
  obtain ⟨-, -, -, hbehind⟩ :=
    slice_of_append (takeNumeral_append (source.drop i)) (takeNumeral_ne_nil h)
  -- the numeral is what the longest match says; what belongs to it behind depends on the next
  -- character
  obtain ⟨kind, v, rest, hread, hend⟩ := exists_numberEnd (Prod.ext rfl hbehind.symm)
  have happ : v ++ rest = source.drop i := by
    have := readNumber_append (source.drop i)
    rwa [hread] at this
  have hne : v ≠ [] := by
    have := readNumber_text_ne_nil h
    rwa [hread] at this
  obtain ⟨hlt, hle, htake, hdrop⟩ := slice_of_append happ hne
  refine ⟨_, kind, i + v.length, isLongest_takeNumeral h, hend, hlt, hle, ?_⟩
  rw [hread, htake, hdrop]

/-- Behind a bracket, a numeral with an exponent and a unit that looks like another one. -/
theorem readNumber_longest_exponents :
    IsLongest Numeral "1e5e5" "1e5" ∧ NumberEnd "(1e5e5" 4 .dimension 6 ∧
      readNumber "1e5e5" = (.lexeme .dimension "1e5e5", []) := by
  have hstart : startsNumber (("(1e5e5" : Text).drop 1) = true := by decide
  obtain ⟨m, kind, stop, hm, hend, -, -, hread⟩ := (readNumber_longest "(1e5e5" 1).2 hstart
  obtain rfl : m = "1e5".toList := hm.eq (isLongest_takeNumeral hstart)
  cases hend with
  | percentage hsign => exact absurd hsign (by decide)
  | number _ hident => exact absurd hident (by decide)
  | dimension hsign hident hu =>
      obtain rfl := hu.eq (isLongest_takeName _)
      exact ⟨hm, .dimension hsign hident hu, hread⟩

end CssHints.Token
