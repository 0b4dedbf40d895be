import CssHints.Proofs.Plain

/-!
# `CssHints.Proofs.Groups`: two ways to follow brackets

Brackets are followed in two ways. A run of tokens is read with the stack of the brackets that are
open (`trackGroups`), and only the closing bracket of the same form takes one off. Selectors are
separated by counting (`groupDepth`), and any closing bracket counts.

A comma outside groups separates in both ways, since the count never exceeds the height of the
stack (`foldl_groupDepth_le`). A comma inside a group separates in the second way if enough brackets
of the wrong form stand before it, as in `a(],b)`. `splitAtCommas_eq_iff` says when the two ways
agree: each comma inside a group needs a stretch in front of it, ending at the comma, in which more
brackets open than close. They agree where brackets match (`splitAtCommas_eq_of_matched`).
-/

set_option autoImplicit false

namespace CssHints.Token

/-! ### Splitting by the stack -/

/-- The opening brackets of the groups that are open behind the tokens, innermost first. -/
def openGroups (ts : List Token) : List Token := ts.foldl trackGroups []

/-- The runs between the commas outside groups, where `groups` are open at the start. -/
def splitOutsideGroups (groups : List Token) : List Token → List (List Token)
  | [] => [[]]
  | t :: ts =>
    if t.kind = .comma ∧ groups = [] then [] :: splitOutsideGroups [] ts
    else match splitOutsideGroups (trackGroups groups t) ts with
      | [] => [[t]]
      | run :: runs => (t :: run) :: runs

/-- There is always a first run, which may be empty. -/
theorem splitOutsideGroups_ne_nil (groups ts : List Token) : splitOutsideGroups groups ts ≠ [] := by
  cases ts with
  | nil => simp [splitOutsideGroups]
  | cons t ts =>
      rw [splitOutsideGroups]
      split
      · simp
      · split <;> simp

/-- What closes a group is a closing bracket. -/
theorem isCloser_of_closer? {g k : Kind} (h : g.closer? = some k) : k.isCloser = true := by
  cases g <;> cases h <;> rfl

/-- A comma does not change the count. -/
theorem groupDepth_comma {t : Token} (ht : t.kind = .comma) (depth : Nat) :
    groupDepth depth t = depth := by
  simp [groupDepth, ht, Kind.isOpener, Kind.isCloser, Kind.closer?]

/-- A comma does not change the stack. -/
theorem trackGroups_comma {t : Token} (ht : t.kind = .comma) (groups : List Token) :
    trackGroups groups t = groups := by
  unfold trackGroups
  rw [ht]
  cases groups with
  | nil => rfl
  | cons g gs =>
      have hg : g.kind.closer? ≠ some .comma := fun hg => nomatch isCloser_of_closer? hg
      exact if_neg hg

/-- At each comma the count and the stack agree on whether a group is open. -/
def AgreeAtCommas (depth : Nat) (groups ts : List Token) : Prop :=
  ∀ before comma after, ts = before ++ comma :: after → comma.kind = .comma →
    (before.foldl groupDepth depth = 0 ↔ before.foldl trackGroups groups = [])

/-- To agree at all commas is to agree at the first token, if that is a comma, and at all later
ones. -/
theorem agreeAtCommas_cons {depth : Nat} {groups ts : List Token} {t : Token} :
    AgreeAtCommas depth groups (t :: ts) ↔
      (t.kind = .comma → (depth = 0 ↔ groups = [])) ∧
        AgreeAtCommas (groupDepth depth t) (trackGroups groups t) ts := by
  constructor
  · intro h
    refine ⟨fun ht => h [] t ts rfl ht, ?_⟩
    intro before comma after hts hcomma
    exact h (t :: before) comma after (by rw [hts]; rfl) hcomma
  · rintro ⟨hhead, htail⟩ before comma after hts hcomma
    -- the comma is the first token, or it stands behind it
    cases before with
    | nil =>
        obtain ⟨rfl, -⟩ : t = comma ∧ ts = after := by simpa using hts
        exact hhead hcomma
    | cons u before =>
        obtain ⟨rfl, hrest⟩ : t = u ∧ ts = before ++ comma :: after := by simpa using hts
        exact htail before comma after hrest hcomma

/-- The two ways of splitting give the same runs just if they agree at each comma: the first comma
at which they do not ends a run in one of them and is part of it in the other. -/
theorem splitAtCommas_eq_iff_agree (depth : Nat) (groups ts : List Token) :
    splitAtCommas depth ts = splitOutsideGroups groups ts ↔ AgreeAtCommas depth groups ts := by
  induction ts generalizing depth groups with
  | nil => simp [splitAtCommas, splitOutsideGroups, AgreeAtCommas]
  | cons t ts ih =>
      have ih := ih (groupDepth depth t) (trackGroups groups t)
      obtain ⟨run, runs, hcount⟩ :=
        List.exists_cons_of_ne_nil (splitAtCommas_ne_nil (groupDepth depth t) ts)
      obtain ⟨run', runs', hstack⟩ :=
        List.exists_cons_of_ne_nil (splitOutsideGroups_ne_nil (trackGroups groups t) ts)
      rw [hcount, hstack] at ih
      rw [agreeAtCommas_cons, ← ih, splitAtCommas, splitOutsideGroups, hcount, hstack]
      by_cases hcomma : t.kind = .comma
      · rw [groupDepth_comma hcomma] at hcount
        rw [trackGroups_comma hcomma] at hstack
        -- where one of the two splits and the other does not, one has an empty run in front
        by_cases hdepth : depth = 0 <;> by_cases hgroups : groups = []
        · subst hdepth hgroups
          simp [hcomma, hcount, hstack]
        · simp [hcomma, hdepth, hgroups]
        · simp [hcomma, hdepth, hgroups]
        · simp [hcomma, hdepth, hgroups]
      · simp [hcomma]

/-! ### The count -/

/-- How many of the tokens open a group. -/
def groupOpenings (ts : List Token) : Nat := ts.countP (·.kind.isOpener)

/-- How many of the tokens are closing brackets, of whatever form. -/
def groupClosings (ts : List Token) : Nat := ts.countP (·.kind.isCloser)

/-- No bracket both opens and closes. -/
theorem isCloser_of_isOpener {k : Kind} (h : k.isOpener = true) : k.isCloser = false := by
  cases k <;> first | rfl | cases h

/-- The count comes to nothing just if the groups that are open at the start are closed in the end,
and what opens in a stretch up to the end closes there too. The second condition is needed because a
closing bracket that finds nothing open does not count against later ones. -/
theorem foldl_groupDepth_eq_zero_iff (depth : Nat) (ts : List Token) :
    ts.foldl groupDepth depth = 0 ↔
      depth + groupOpenings ts ≤ groupClosings ts ∧
        ∀ tail, tail <:+ ts → groupOpenings tail ≤ groupClosings tail := by
  induction ts generalizing depth with
  | nil => simp [groupOpenings, groupClosings]
  | cons t ts ih =>
      rw [List.foldl_cons, ih]
      have hopen : groupOpenings (t :: ts) =
          groupOpenings ts + if t.kind.isOpener then 1 else 0 := by
        simp [groupOpenings, List.countP_cons]
      have hclose : groupClosings (t :: ts) =
          groupClosings ts + if t.kind.isCloser then 1 else 0 := by
        simp [groupClosings, List.countP_cons]
      -- the bound for the rest alone covers the closing bracket that finds nothing to close
      have hfirst (hrest : groupOpenings ts ≤ groupClosings ts) :
          groupDepth depth t + groupOpenings ts ≤ groupClosings ts ↔
            depth + groupOpenings (t :: ts) ≤ groupClosings (t :: ts) := by
        rw [hopen, hclose, groupDepth]
        cases hk : t.kind.isOpener with
        | true =>
            rw [isCloser_of_isOpener hk]
            simp only [if_true, Bool.false_eq_true, if_false]
            omega
        | false =>
            cases t.kind.isCloser <;> simp only [if_true, Bool.false_eq_true, if_false] <;> omega
      constructor
      · rintro ⟨hle, hall⟩
        have hlong := (hfirst (hall ts (List.suffix_refl ts))).1 hle
        refine ⟨hlong, fun tail htail => ?_⟩
        rcases List.suffix_cons_iff.1 htail with rfl | htail
        · omega
        · exact hall tail htail
      · rintro ⟨hle, hall⟩
        have hshort (tail : List Token) (htail : tail <:+ ts) :
            groupOpenings tail ≤ groupClosings tail :=
          hall tail (htail.trans (List.suffix_cons t ts))
        exact ⟨(hfirst (hshort ts (List.suffix_refl ts))).2 hle, hshort⟩

/-- A group counts as open just if more brackets open than close in some stretch up to the end. The
count never goes below zero, so a closing bracket with nothing to close is forgotten; that is why a
stretch is asked for and not the whole list. -/
theorem foldl_groupDepth_ne_zero_iff (ts : List Token) :
    ts.foldl groupDepth 0 ≠ 0 ↔ ∃ tail, tail <:+ ts ∧ groupClosings tail < groupOpenings tail := by
  rw [Ne, foldl_groupDepth_eq_zero_iff]
  constructor
  · intro h
    refine Classical.byContradiction fun hnone => h ?_
    have hall : ∀ tail, tail <:+ ts → groupOpenings tail ≤ groupClosings tail :=
      fun tail htail => Nat.not_lt.1 fun hlt => hnone ⟨tail, htail, hlt⟩
    exact ⟨by simpa using hall ts (List.suffix_refl ts), hall⟩
  · rintro ⟨tail, htail, hlt⟩ ⟨-, hall⟩
    exact Nat.not_lt.2 (hall tail htail) hlt

/-- The count never exceeds the height of the stack: each bracket that is taken off counts. A
closing bracket that fits no open one lowers the count only, so the two may differ from there on. -/
theorem groupDepth_le {depth : Nat} {groups : List Token} (h : depth ≤ groups.length) (t : Token) :
    groupDepth depth t ≤ (trackGroups groups t).length := by
  cases hopen : t.kind.isOpener with
  | true => simpa [groupDepth, trackGroups, hopen] using h
  | false =>
      cases groups with
      | nil =>
          obtain rfl : depth = 0 := by simpa using h
          simp [groupDepth, trackGroups, hopen]
      | cons g gs =>
          rw [List.length_cons] at h
          by_cases hg : g.kind.closer? = some t.kind
          · -- what is taken off the stack counts, for it is taken off by a closing bracket
            have hclose := isCloser_of_closer? hg
            simp only [groupDepth, trackGroups, hopen, hg, hclose, Bool.false_eq_true, if_false,
              if_true]
            omega
          · simp only [groupDepth, trackGroups, hopen, hg, Bool.false_eq_true, if_false,
              List.length_cons]
            split <;> omega

/-- Along a whole run the count stays at most as high as the stack. -/
theorem foldl_groupDepth_le {depth : Nat} {groups : List Token} (h : depth ≤ groups.length)
    (ts : List Token) : ts.foldl groupDepth depth ≤ (ts.foldl trackGroups groups).length := by
  induction ts generalizing depth groups with
  | nil => exact h
  | cons t ts ih => exact ih (groupDepth_le h t)

/-- **When the two ways agree.** Selectors are separated at the commas outside groups, and at no
others, just if each comma inside a group has a stretch in front of it, up to the comma, in which
more brackets open than close. -/
theorem splitAtCommas_eq_iff (ts : List Token) :
    splitAtCommas 0 ts = splitOutsideGroups [] ts ↔
      ∀ before comma after, ts = before ++ comma :: after → comma.kind = .comma →
        openGroups before ≠ [] →
        ∃ tail, tail <:+ before ∧ groupClosings tail < groupOpenings tail := by
  rw [splitAtCommas_eq_iff_agree]
  refine forall_congr' fun before => forall_congr' fun comma => forall_congr' fun after =>
    forall_congr' fun _ => forall_congr' fun _ => ?_
  -- an empty stack leaves nothing to count, so only the other direction is open
  have hzero : openGroups before = [] → before.foldl groupDepth 0 = 0 := by
    intro hnone
    have hle : before.foldl groupDepth 0 ≤ (openGroups before).length :=
      foldl_groupDepth_le (Nat.zero_le _) before
    rw [hnone] at hle
    exact Nat.le_zero.1 hle
  show (_ ↔ openGroups before = []) ↔ _
  rw [← foldl_groupDepth_ne_zero_iff]
  constructor
  · intro hiff hopen hdepth
    exact hopen (hiff.1 hdepth)
  · intro h
    refine ⟨fun hdepth => ?_, hzero⟩
    exact Decidable.byContradiction fun hopen => h hopen hdepth

-- the square bracket is not open, and still it counts
example : (words "a(],b)".toList).map (fun ts =>
      ((splitAtCommas 0 ts).map text, (splitOutsideGroups [] ts).map text)) =
    some (["a(]".toList, "b)".toList], ["a(],b)".toList]) := by
  decide +kernel

/-! ### Brackets that match -/

/-- Where brackets match, the count is the height of the stack, so both are zero at the same
commas. -/
theorem agreeAtCommas_of_matched {groups ts : List Token}
    (h : Matched (groups.map Token.kind) ts) : AgreeAtCommas groups.length groups ts := by
  induction ts generalizing groups with
  | nil => simp [AgreeAtCommas]
  | cons t ts ih =>
      -- the height of the stack is the count at each token, so at each comma
      obtain ⟨hmatch, hrest⟩ := h
      rw [← Grammar.map_kind_trackGroups] at hrest
      have hheight := groupDepth_eq_length hmatch
      rw [← Grammar.map_kind_trackGroups, List.length_map, List.length_map] at hheight
      rw [agreeAtCommas_cons, hheight]
      exact ⟨fun _ => List.length_eq_zero_iff, ih hrest⟩

/-- If the brackets match, no comma inside a group separates. -/
theorem splitAtCommas_eq_of_matched {ts : List Token} (h : Matched [] ts) :
    splitAtCommas 0 ts = splitOutsideGroups [] ts :=
  (splitAtCommas_eq_iff_agree 0 [] ts).2 (@agreeAtCommas_of_matched [] ts h)

end CssHints.Token
