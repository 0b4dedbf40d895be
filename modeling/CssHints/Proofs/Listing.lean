import CssHints.Command.Run

/-!
# `CssHints.Proofs.Listing`: what a listing says

The listing of the rules of a stylesheet is a text, and a reader takes three things from each of its
lines: the word for the status, the at-rules around the rule and its selectors. This module says
what these are in words of its own, apart from the functions that print them.

* `Text.Strips`: what is left of a text without terminal control sequences, which is how messages
  are printed. There is one such text (`Text.strips_iff`).
* `Stylesheet.ListsRules`: every rule of a tree once, in document order, and the at-rules around it.
  Rules are told apart by their addresses (`Stylesheet.ruleAt?`), and document order is the order of
  the addresses. A walk lists the rules (`Stylesheet.listsRules_walk`).
* `ShowsRule`: a line shows a rule. Its first word is `match`, `excluded` or `skip`, by what the
  settings make of the rule; the chain of at-rules and the selectors follow.
* `Listing`: a printed text lists a tree. It has one line for each rule and a summary, and the
  numbers of the summary are those of the lines that start with the words. `listing_listing` says
  that this is what is printed.

A selector or a prelude can hold a line feed, in a string or in a bare URL, and then the line of its
rule goes on behind that line feed. If no line holds one, then the lines of the printed text are
exactly those of the rules (`Listing.split`).
-/

set_option autoImplicit false

namespace CssHints

/-! ### Text without control sequences -/

namespace Text

/-- A terminal control sequence: an escape character, an opening bracket, parameters and a
letter. -/
def IsSequence (q : Text) : Prop :=
  ∃ parameters last, q = '\x1b' :: '[' :: (parameters ++ [last]) ∧
    (∀ p ∈ parameters, p = ';' ∨ p = '?' ∨ p.isDigit = true) ∧ last.isAlpha = true

/-- The second text is what is left of the first one without its control sequences. They are taken
out from left to right, so one that is only made up by taking out another stays. -/
inductive Strips : Text → Text → Prop
  | nil : Strips [] []
  | sequence {q s t : Text} : IsSequence q → Strips s t → Strips (q ++ s) t
  | char {c : Char} {s t : Text} :
      (∀ q, IsSequence q → ¬q <+: c :: s) → Strips s t → Strips (c :: s) (c :: t)

/-- A parameter of a control sequence is a semicolon, a question mark or a digit. -/
theorem isParameter_iff {c : Char} :
    isParameter c = true ↔ c = ';' ∨ c = '?' ∨ c.isDigit = true := by
  simp [isParameter, or_assoc]

/-- A letter ends the parameters: it is none itself. -/
theorem isParameter_of_isAlpha {c : Char} (h : c.isAlpha = true) : isParameter c = false := by
  have hno : c ≠ ';' ∧ c ≠ '?' := by
    constructor <;> (rintro rfl; revert h; decide)
  have hdigit : c.isDigit = false := by
    delta Char.isAlpha Char.isUpper Char.isLower at h
    simp only [Bool.or_eq_true, Bool.and_eq_true, decide_eq_true_eq] at h
    simp only [Char.isDigit, Bool.and_eq_false_iff, decide_eq_false_iff_not]
    rcases h with ⟨h, -⟩ | ⟨h, -⟩
    all_goals
      right
      intro hle
      exact absurd (UInt32.le_trans h hle) (by decide)
  simp [isParameter, hno.1, hno.2, hdigit]

/-- What stands behind an escape character is behind a control sequence just if the two make one.
The parameters are taken as far as they go, and the letter behind them is no parameter, so the
sequence has one end only. -/
theorem afterSequence?_eq_some_iff {s r : Text} :
    afterSequence? s = some r ↔ ∃ q, IsSequence ('\x1b' :: q) ∧ s = q ++ r := by
  constructor
  · intro h
    unfold afterSequence? at h
    split at h
    · rename_i s
      split at h
      · rename_i c t ht
        split at h
        · rename_i hc
          cases h
          refine ⟨'[' :: (s.takeWhile isParameter ++ [c]), ⟨_, c, rfl, ?_, hc⟩, ?_⟩
          · exact fun p hp => isParameter_iff.1 (List.all_eq_true.1 List.all_takeWhile p hp)
          · simp [← ht]
        · cases h
      · cases h
    · cases h
  · rintro ⟨q, ⟨parameters, last, hq, hparameters, hlast⟩, rfl⟩
    cases hq
    -- a letter is no parameter, so the parameters end where the sequence says
    have hdrop : (parameters ++ last :: r).dropWhile isParameter = last :: r := by
      rw [List.dropWhile_append_of_pos fun p hp => isParameter_iff.2 (hparameters p hp)]
      simp [isParameter_of_isAlpha hlast]
    simp [afterSequence?, hdrop, hlast]

/-- A sequence at the start of a text begins with its first character, so there is none if that is
no escape character or opens no sequence. -/
theorem not_startsSequence {c : Char} {s : Text}
    (h : c = '\x1b' → afterSequence? s = none) (q : Text) (hq : IsSequence q) : ¬q <+: c :: s := by
  rintro ⟨r, hr⟩
  obtain ⟨parameters, last, rfl, hrest⟩ := hq
  obtain ⟨rfl, rfl⟩ := List.cons.inj hr
  have hafter : afterSequence? ('[' :: (parameters ++ [last]) ++ r) = some r :=
    afterSequence?_eq_some_iff.2 ⟨_, ⟨parameters, last, rfl, hrest⟩, rfl⟩
  exact absurd (hafter.symm.trans (h rfl)) (by simp)

/-- Taking out control sequences as it is done gives what `Strips` allows. -/
theorem strips_stripSequences (s : Text) : Strips s (stripSequences s) := by
  fun_induction stripSequences s with
  | case1 => exact .nil
  | case2 s r hafter ih =>
      obtain ⟨q, hq, rfl⟩ := afterSequence?_eq_some_iff.1 hafter
      exact .sequence hq ih
  | case3 s hafter ih => exact .char (not_startsSequence fun _ => hafter) ih
  | case4 c s hc ih => exact .char (not_startsSequence fun h => absurd h hc) ih

/-- **Messages as they are printed.** Taking out the control sequences of a text has one result: a
sequence is determined by where it starts, and a character stays only if none starts there. -/
theorem strips_iff {s t : Text} : Strips s t ↔ t = stripSequences s := by
  constructor
  · intro h
    induction h with
    | nil => rw [stripSequences]
    | @sequence q s t hq _ ih =>
        obtain ⟨parameters, last, rfl, hrest⟩ := hq
        have hafter : afterSequence? ('[' :: (parameters ++ [last]) ++ s) = some s :=
          afterSequence?_eq_some_iff.2 ⟨_, ⟨parameters, last, rfl, hrest⟩, rfl⟩
        rw [List.cons_append, stripSequences, if_pos rfl]
        split
        · rename_i r hr
          rw [hafter] at hr
          cases hr
          exact ih
        · rename_i hr
          rw [hafter] at hr
          cases hr
    | @char c s t hno _ ih =>
        rw [stripSequences, ih]
        split
        · rename_i hc
          split
          · -- a sequence that starts here was ruled out
            rename_i r hr
            obtain ⟨q, hq, rfl⟩ := afterSequence?_eq_some_iff.1 hr
            exact absurd ⟨r, by rw [hc, List.cons_append]⟩ (hno _ hq)
          · rfl
        · rfl
  · rintro rfl
    exact strips_stripSequences s

/-- Text without an escape character is printed as it is, whatever follows. -/
theorem stripSequences_append {s : Text} (h : '\x1b' ∉ s) (t : Text) :
    stripSequences (s ++ t) = s ++ stripSequences t := by
  induction s with
  | nil => rfl
  | cons c s ih =>
      simp only [List.mem_cons, not_or] at h
      rw [List.cons_append, stripSequences, if_neg (Ne.symm h.1), ih h.2, List.cons_append]

/-- Text without an escape character is printed as it is. -/
theorem stripSequences_eq_self {s : Text} (h : '\x1b' ∉ s) : stripSequences s = s := by
  have happ := stripSequences_append h []
  rwa [stripSequences, List.append_nil] at happ

/-- A line feed ends no control sequence, so it neither makes one nor goes with one. This is the
reason why a message and the line feed behind it can be treated apart. -/
theorem afterSequence?_newline (s : Text) :
    afterSequence? (s ++ ['\n']) = (afterSequence? s).map (· ++ ['\n']) := by
  cases hs : afterSequence? s with
  | some r =>
      obtain ⟨q, hq, rfl⟩ := afterSequence?_eq_some_iff.1 hs
      exact afterSequence?_eq_some_iff.2 ⟨q, hq, by simp⟩
  | none =>
      cases hr : afterSequence? (s ++ ['\n']) with
      | none => rfl
      | some r =>
          obtain ⟨q, hq, happ⟩ := afterSequence?_eq_some_iff.1 hr
          -- the sequence ends with a letter, so the line feed stands behind it
          rcases List.eq_nil_or_concat r with rfl | ⟨r, d, rfl⟩
          · obtain ⟨parameters, last, hlast, -, hletter⟩ := hq
            obtain rfl : q = ('[' :: parameters) ++ [last] := List.tail_eq_of_cons_eq hlast
            rw [List.append_nil] at happ
            obtain rfl : '\n' = last := by simpa using (List.append_inj' happ rfl).2
            exact absurd hletter (by decide)
          · obtain ⟨rfl, -⟩ : s = q ++ r ∧ '\n' = d := by
              rw [List.concat_eq_append, ← List.append_assoc] at happ
              simpa using List.append_inj' happ rfl
            rw [afterSequence?_eq_some_iff.2 ⟨q, hq, rfl⟩] at hs
            cases hs

/-- The line feed at the end of a message is printed, whatever the message ends with, even if that
is the start of a control sequence. -/
theorem stripSequences_newline (s : Text) :
    stripSequences (s ++ ['\n']) = stripSequences s ++ ['\n'] := by
  fun_induction stripSequences s with
  | case1 => simp [stripSequences]
  | case2 s r hafter ih =>
      -- a line feed ends no sequence and starts none, so those of the text are found and no others
      have hnext : afterSequence? (s ++ ['\n']) = some (r ++ ['\n']) := by
        rw [afterSequence?_newline, hafter]
        rfl
      rw [List.cons_append, stripSequences, if_pos rfl]
      split
      · rename_i r' hr'
        rw [hnext] at hr'
        cases hr'
        exact ih
      · rename_i hr'
        rw [hnext] at hr'
        cases hr'
  | case3 s hafter ih =>
      have hnext : afterSequence? (s ++ ['\n']) = none := by
        rw [afterSequence?_newline, hafter]
        rfl
      rw [List.cons_append, stripSequences, if_pos rfl]
      split
      · rename_i r' hr'
        rw [hnext] at hr'
        cases hr'
      · rw [ih, List.cons_append]
  | case4 c s hc ih => rw [List.cons_append, stripSequences, if_neg hc, ih, List.cons_append]

end Text

/-! ### The rules of a tree by their addresses -/

/-- The rule at an address, with the at-rules around it, the outermost first. An address leads into
the tree: its first number picks a node, and the others lead on in the block of that node. -/
def Stylesheet.ruleAt? : List Nat → List Node → Option (List AtHead × Rule)
  | [], _ => none
  | i :: is, ns =>
    match ns[i]? with
    | some (.rule r) => if is = [] then some ([], r) else none
    | some (.block head children _) =>
      (Stylesheet.ruleAt? is children).map fun e => (head :: e.1, e.2)
    | _ => none

/-- The entries are the rules of the tree with the at-rules around them, each rule once and in
document order. -/
def Stylesheet.ListsRules (sheet : Stylesheet) (entries : List (List AtHead × Rule)) : Prop :=
  ∃ addresses : List (List Nat),
    addresses.Pairwise (List.Lex (· < ·)) ∧
      (∀ a, a ∈ addresses ↔ (Stylesheet.ruleAt? a sheet).isSome = true) ∧
      addresses.map (Stylesheet.ruleAt? · sheet) = entries.map some

mutual

/-- The addresses of the rules in a node, seen from the node. -/
def Node.addresses : Node → List (List Nat)
  | .rule _ => [[]]
  | .block _ children _ => Stylesheet.addressesFrom 0 children
  | .statement _ => []
  | .stray _ => []

/-- The addresses of the rules in a list of nodes, the first of which has number `i`. -/
def Stylesheet.addressesFrom (i : Nat) : List Node → List (List Nat)
  | [] => []
  | n :: ns => n.addresses.map (i :: ·) ++ Stylesheet.addressesFrom (i + 1) ns

end

/-- An address in a list of nodes starts with the number of one of them, counted from `i` on. -/
theorem Stylesheet.exists_cons_of_mem_addressesFrom {ns : List Node} {i : Nat} {a : List Nat}
    (h : a ∈ Stylesheet.addressesFrom i ns) : ∃ j b, a = j :: b ∧ i ≤ j := by
  induction ns generalizing i with
  | nil => cases h
  | cons n ns ih =>
      rcases List.mem_append.1 h with hfirst | hrest
      · obtain ⟨b, -, rfl⟩ := List.mem_map.1 hfirst
        exact ⟨i, b, rfl, Nat.le_refl i⟩
      · obtain ⟨j, b, rfl, hj⟩ := ih hrest
        exact ⟨j, b, rfl, by omega⟩

mutual

/-- The addresses of the rules in a node stand in order. -/
theorem Node.pairwise_addresses : (n : Node) → n.addresses.Pairwise (List.Lex (· < ·))
  | .rule _ => List.pairwise_singleton _ _
  | .block _ children _ => Stylesheet.pairwise_addressesFrom 0 children
  | .statement _ => .nil
  | .stray _ => .nil

/-- The addresses of the rules in a list of nodes stand in order, so no rule is listed twice. Within
a node the order is that of the node, and between nodes the first number decides. -/
theorem Stylesheet.pairwise_addressesFrom (i : Nat) :
    (ns : List Node) → (Stylesheet.addressesFrom i ns).Pairwise (List.Lex (· < ·))
  | [] => .nil
  | n :: ns => by
      refine List.pairwise_append.2 ⟨?_, Stylesheet.pairwise_addressesFrom (i + 1) ns, ?_⟩
      · exact List.pairwise_map.2 (n.pairwise_addresses.imp List.Lex.cons)
      · -- a later node has a greater number
        intro a ha b hb
        obtain ⟨a, -, rfl⟩ := List.mem_map.1 ha
        obtain ⟨j, b, rfl, hj⟩ := Stylesheet.exists_cons_of_mem_addressesFrom hb
        exact .rel (by omega)

end

/-- The rule at the end of an address that has led to a node. -/
def Node.ruleAt? (a : List Nat) : Node → Option (List AtHead × Rule)
  | .rule r => if a = [] then some ([], r) else none
  | .block head children _ => (Stylesheet.ruleAt? a children).map fun e => (head :: e.1, e.2)
  | .statement _ => none
  | .stray _ => none

/-- An address leads to a node first, and then on from that node. -/
theorem Stylesheet.ruleAt?_cons (i : Nat) (a : List Nat) (ns : List Node) :
    Stylesheet.ruleAt? (i :: a) ns = ns[i]?.bind (Node.ruleAt? a) := by
  rw [Stylesheet.ruleAt?]
  cases ns[i]? with
  | none => rfl
  | some n => cases n <;> rfl

/-- There is a rule at an address just if the address leads to a node and from there to a rule. -/
theorem Stylesheet.isSome_ruleAt?_iff (a : List Nat) (ns : List Node) :
    (Stylesheet.ruleAt? a ns).isSome = true ↔
      ∃ j b, a = (0 + j) :: b ∧ (ns[j]?.bind (Node.ruleAt? b)).isSome = true := by
  cases a with
  | nil => simp [Stylesheet.ruleAt?]
  | cons i a =>
      rw [Stylesheet.ruleAt?_cons]
      constructor
      · intro h
        exact ⟨i, a, by rw [Nat.zero_add], h⟩
      · rintro ⟨j, b, he, h⟩
        obtain ⟨rfl, rfl⟩ : i = j ∧ a = b := by simpa using he
        exact h

mutual

/-- The addresses of a node are those at which there is a rule. -/
theorem Node.mem_addresses (a : List Nat) :
    (n : Node) → (a ∈ n.addresses ↔ (n.ruleAt? a).isSome = true)
  | .rule r => by by_cases ha : a = [] <;> simp [Node.addresses, Node.ruleAt?, ha]
  | .block _ children _ => by
      rw [Node.addresses, Node.ruleAt?, Option.isSome_map,
        Stylesheet.mem_addressesFrom 0 a children, Stylesheet.isSome_ruleAt?_iff]
  | .statement _ => by simp [Node.addresses, Node.ruleAt?]
  | .stray _ => by simp [Node.addresses, Node.ruleAt?]

/-- The addresses of a list of nodes are those at which there is a rule, so no rule is left out.
Together with their order this determines the list. -/
theorem Stylesheet.mem_addressesFrom (i : Nat) (a : List Nat) :
    (ns : List Node) → (a ∈ Stylesheet.addressesFrom i ns ↔
      ∃ j b, a = (i + j) :: b ∧ (ns[j]?.bind (Node.ruleAt? b)).isSome = true)
  | [] => by simp [Stylesheet.addressesFrom]
  | n :: ns => by
      rw [Stylesheet.addressesFrom, List.mem_append, Stylesheet.mem_addressesFrom (i + 1) a ns]
      constructor
      · rintro (hfirst | ⟨j, b, rfl, hrule⟩)
        · obtain ⟨b, hb, rfl⟩ := List.mem_map.1 hfirst
          exact ⟨0, b, rfl, (Node.mem_addresses b n).1 hb⟩
        · exact ⟨j + 1, b, by rw [Nat.add_assoc, Nat.add_comm 1 j], hrule⟩
      · rintro ⟨j, b, rfl, hrule⟩
        cases j with
        | zero => exact .inl (List.mem_map.2 ⟨b, (Node.mem_addresses b n).2 hrule, rfl⟩)
        | succ j => exact .inr ⟨j, b, by rw [Nat.add_assoc, Nat.add_comm 1 j], hrule⟩

end

mutual

/-- The rules at the addresses in a node are those that a walk finds there, with the at-rules around
the node in front. -/
theorem Node.map_ruleAt?_addresses (parents : List AtHead) :
    (n : Node) → n.addresses.map (fun a => (n.ruleAt? a).map fun e => (parents ++ e.1, e.2)) =
      (n.walk parents).map some
  | .rule r => by simp [Node.addresses, Node.ruleAt?, Node.walk]
  | .block head children _ => by
      have h := Stylesheet.map_ruleAt?_addressesFrom (parents ++ [head]) 0 children
      rw [Node.addresses, Node.walk, ← h]
      refine List.map_congr_left fun a ha => ?_
      -- the head of the block comes behind the at-rules around it, on both sides
      obtain ⟨j, b, rfl, -⟩ := Stylesheet.exists_cons_of_mem_addressesFrom ha
      simp [Node.ruleAt?, Stylesheet.ruleAt?_cons, Option.map_map, Function.comp_def]
  | .statement _ => rfl
  | .stray _ => rfl

/-- The rules at the addresses in a list of nodes are those that a walk finds there, in the same
order. -/
theorem Stylesheet.map_ruleAt?_addressesFrom (parents : List AtHead) (i : Nat) :
    (ns : List Node) →
      (Stylesheet.addressesFrom i ns).map (fun a =>
          (ns[a.headD 0 - i]?.bind (Node.ruleAt? a.tail)).map fun e => (parents ++ e.1, e.2)) =
        (Stylesheet.walkBelow parents ns).map some
  | [] => rfl
  | n :: ns => by
      rw [Stylesheet.addressesFrom, Stylesheet.walkBelow, List.map_append, List.map_append,
        List.map_map, ← Node.map_ruleAt?_addresses parents n,
        ← Stylesheet.map_ruleAt?_addressesFrom parents (i + 1) ns]
      congr 1
      · exact List.map_congr_left fun b _ => by simp
      · -- the later nodes are counted from one
        refine List.map_congr_left fun a ha => ?_
        obtain ⟨j, b, rfl, hj⟩ := Stylesheet.exists_cons_of_mem_addressesFrom ha
        obtain ⟨k, rfl⟩ := Nat.exists_eq_add_of_le hj
        simp [show i + 1 + k - i = k + 1 by omega]

end

/-- **A walk is complete.** It gives every rule of a tree once, in document order, with all at-rules
around it. -/
theorem Stylesheet.listsRules_walk (sheet : Stylesheet) : sheet.ListsRules sheet.walk := by
  refine ⟨Stylesheet.addressesFrom 0 sheet, Stylesheet.pairwise_addressesFrom 0 sheet, ?_, ?_⟩
  · intro a
    rw [Stylesheet.mem_addressesFrom, Stylesheet.isSome_ruleAt?_iff]
  · have h := Stylesheet.map_ruleAt?_addressesFrom [] 0 sheet
    rw [Stylesheet.walk, ← h]
    refine List.map_congr_left fun a ha => ?_
    obtain ⟨j, b, rfl, -⟩ := Stylesheet.exists_cons_of_mem_addressesFrom ha
    simp [Stylesheet.ruleAt?_cons]

namespace Command

/-! ### The line of a rule -/

/-- The word for what the settings make of a rule, filled up to the width of the column. An excluded
rule is called so whether or not it has a target. -/
inductive ShowsStatus (c : Config) (r : Rule) : Text → Prop
  | eligible : r.isEligible c = true → ShowsStatus c r "match    "
  | excluded : r.isExcluded c = true → ShowsStatus c r "excluded "
  | skipped : r.isExcluded c = false → r.hasTarget c = false → ShowsStatus c r "skip     "

/-- The at-rules around a rule, the outermost first, each with its prelude if it has one. -/
inductive ShowsChain : List AtHead → Text → Prop
  | nil : ShowsChain [] []
  | bare {name chain : Text} {parents : List AtHead} : ShowsChain parents chain →
      ShowsChain (⟨name, []⟩ :: parents) ("@" ++ name ++ " > " ++ chain)
  | full {name prelude chain : Text} {parents : List AtHead} : prelude ≠ [] →
      ShowsChain parents chain →
      ShowsChain (⟨name, prelude⟩ :: parents) ("@" ++ name ++ " " ++ prelude ++ " > " ++ chain)

/-- The line shows the rule: the word for its status, the at-rules around it and its selectors, the
latter two without control sequences. -/
def ShowsRule (c : Config) (entry : List AtHead × Rule) (line : Text) : Prop :=
  ∃ status chain shown, ShowsStatus c entry.2 status ∧ ShowsChain entry.1 chain ∧
    Text.Strips (chain ++ List.intercalate ", ".toList entry.2.selectors) shown ∧
    line = status ++ shown

/-- The printed word for a rule is the one for what the settings make of it. -/
theorem showsStatus_label (c : Config) (r : Rule) :
    ShowsStatus c r (Text.padRight 9 (statusOf c r).label) := by
  unfold statusOf
  cases hexcluded : r.isExcluded c with
  | true => exact .excluded hexcluded
  | false =>
      cases htarget : r.hasTarget c with
      | true => exact .eligible (by rw [Rule.isEligible, hexcluded, htarget]; rfl)
      | false => exact .skipped hexcluded htarget

/-- The printed chain of at-rules has each of them with its prelude, if it has one, from the
outermost to the innermost. -/
theorem showsChain_render (parents : List AtHead) :
    ShowsChain parents (parents.flatMap fun h => h.render ++ " > ".toList) := by
  induction parents with
  | nil => exact .nil
  | cons head parents ih =>
      obtain ⟨name, prelude⟩ := head
      rw [List.flatMap_cons, AtHead.render]
      split
      · rename_i hprelude
        cases hprelude
        exact .bare ih
      · rename_i hprelude
        exact .full hprelude ih

/-- The status is told by the first word of a line, whatever follows: no word starts another. -/
theorem ShowsStatus.isPrefixOf_iff {c : Config} {r : Rule} {word : Text}
    (h : ShowsStatus c r word) (s : Text) :
    ("match".toList <+: word ++ s ↔ r.isEligible c = true) ∧
      ("excluded".toList <+: word ++ s ↔ r.isExcluded c = true) ∧
      ("skip".toList <+: word ++ s ↔ r.isExcluded c = false ∧ r.hasTarget c = false) := by
  cases h with
  | eligible h =>
      have hboth : r.isExcluded c = false ∧ r.hasTarget c = true := by
        simpa [Rule.isEligible] using h
      simp [h, hboth, List.prefix_iff_eq_take]
  | excluded h => simp [Rule.isEligible, h, List.prefix_iff_eq_take]
  | skipped h h' => simp [Rule.isEligible, h, h', List.prefix_iff_eq_take]

/-- A printed message is the message without control sequences, and a line feed. -/
theorem say_eq (m : Text) : say m = Text.stripSequences m ++ ['\n'] := Text.stripSequences_newline m

/-- The printed line of a rule shows the rule. -/
theorem showsRule_ruleLine (c : Config) (entry : List AtHead × Rule) :
    ShowsRule c entry (Text.stripSequences (ruleLine c entry.1 entry.2)) := by
  refine ⟨_, _, _, showsStatus_label c entry.2, showsChain_render entry.1,
    Text.strips_stripSequences _, ?_⟩
  -- the word for the status holds no escape character, so it is printed as it is
  have hword : '\x1b' ∉ Text.padRight 9 (statusOf c entry.2).label := by
    cases statusOf c entry.2 <;> decide
  rw [ruleLine, List.append_assoc, Text.stripSequences_append hword]
  rfl

/-! ### The listing of a tree -/

/-- The number of lines that start with the word. -/
def countLines (word : Text) (lines : List Text) : Nat := (lines.filter word.isPrefixOf).length

/-- The last line of a listing: how many of its lines start with each word. -/
def summaryLine (lines : List Text) : Text :=
  "Summary: " ++ Text.ofNat (countLines "match" lines) ++ " match, " ++
    Text.ofNat (countLines "excluded" lines) ++ " excluded, " ++
    Text.ofNat (countLines "skip" lines) ++ " skip"

/-- The printed text lists the rules of the tree, `shown` being the rules with their lines. The
numbers of rules and of eligible ones are `total` and `eligible`. -/
structure Listing (c : Config) (sheet : Stylesheet) (eligible total : Nat)
    (shown : List ((List AtHead × Rule) × Text)) (stdout : Text) : Prop where
  /-- There is one line for each rule of the tree, in document order. -/
  rules : sheet.ListsRules (shown.map Prod.fst)
  /-- Each line shows its rule. -/
  line : ∀ e ∈ shown, ShowsRule c e.1 e.2
  /-- The lines of eligible rules, and no others, start with the word `match`. -/
  isMatch : ∀ e ∈ shown, "match".toList <+: e.2 ↔ e.1.2.isEligible c = true
  /-- The lines are printed one below the other, then an empty line and the summary. -/
  text : stdout = (shown.flatMap fun e => e.2 ++ ['\n']) ++ ['\n'] ++
    summaryLine (shown.map Prod.snd) ++ ['\n']
  /-- There are as many `match` lines as eligible rules. -/
  matched : countLines "match" (shown.map Prod.snd) = eligible
  /-- The three numbers of the summary make up all rules. -/
  sum : countLines "match" (shown.map Prod.snd) + countLines "excluded" (shown.map Prod.snd) +
    countLines "skip" (shown.map Prod.snd) = total
  /-- If no line of a rule goes on behind a line feed, then the lines of the printed text are
  those of the rules, the empty line and the summary. -/
  split : (∀ e ∈ shown, '\n' ∉ e.2) →
    List.splitOn '\n' stdout = shown.map Prod.snd ++ [[], summaryLine (shown.map Prod.snd), []]

/-- A character that is no digit is in no written number. -/
theorem not_mem_ofNat {d : Char} (hd : d.isDigit = false) (n : Nat) : d ∉ Text.ofNat n := by
  intro hmem
  have hdigit := Nat.isDigit_of_mem_toDigits (b := 10) (by decide) (by decide) hmem
  rw [hd] at hdigit
  cases hdigit

/-- The summary is one line, and it is printed as it is. -/
theorem plain_summaryLine (lines : List Text) :
    '\n' ∉ summaryLine lines ∧ '\x1b' ∉ summaryLine lines := by
  have hfeed : ∀ n, '\n' ∉ Text.ofNat n := fun n => not_mem_ofNat (by decide) n
  have hescape : ∀ n, '\x1b' ∉ Text.ofNat n := fun n => not_mem_ofNat (by decide) n
  -- the numbers do not matter, only that they are written in digits
  unfold summaryLine
  generalize countLines "match" lines = matched, countLines "excluded" lines = excluded,
    countLines "skip" lines = skipped
  constructor <;> simp [hfeed, hescape]

/-- Lines are found again in the text that they make up, if none of them holds a line feed. -/
theorem splitOn_flatMap_newline {lines : List Text} (h : ∀ line ∈ lines, '\n' ∉ line) (s : Text) :
    List.splitOn '\n' (lines.flatMap (· ++ ['\n']) ++ s) = lines ++ List.splitOn '\n' s := by
  induction lines with
  | nil => rfl
  | cons line lines ih =>
      rw [List.flatMap_cons, List.append_assoc, List.append_assoc, List.singleton_append,
        List.splitOn_append_cons_self_of_not_mem (h line List.mem_cons_self),
        ih fun l hl => h l (List.mem_cons_of_mem _ hl), List.cons_append]

/-- Rules counted by their statuses are counted once each. -/
theorem length_filter_statusOf (c : Config) (rules : List Rule) :
    (rules.filter (statusOf c · = .eligible)).length +
      (rules.filter (statusOf c · = .excluded)).length +
      (rules.filter (statusOf c · = .skipped)).length = rules.length := by
  induction rules with
  | nil => rfl
  | cons r rules ih => cases hstatus : statusOf c r <;> simp [hstatus] <;> omega

/-- A rule has the first of the statuses just if it is eligible. -/
theorem statusOf_eq_eligible_iff {c : Config} (r : Rule) :
    statusOf c r = .eligible ↔ r.isEligible c = true := by
  unfold statusOf Rule.isEligible
  cases r.isExcluded c <;> cases r.hasTarget c <;> simp

/-- The three words stand for the three statuses, so the status of a rule can be told from its line
alone. -/
theorem ShowsRule.isPrefixOf_iff {c : Config} {entry : List AtHead × Rule} {line : Text}
    (h : ShowsRule c entry line) :
    ("match".toList <+: line ↔ statusOf c entry.2 = .eligible) ∧
      ("excluded".toList <+: line ↔ statusOf c entry.2 = .excluded) ∧
      ("skip".toList <+: line ↔ statusOf c entry.2 = .skipped) := by
  obtain ⟨status, chain, shown, hstatus, -, -, rfl⟩ := h
  obtain ⟨hmatch, hexcluded, hskip⟩ := hstatus.isPrefixOf_iff shown
  refine ⟨hmatch.trans (statusOf_eq_eligible_iff _).symm, hexcluded.trans ?_, hskip.trans ?_⟩
  all_goals
    unfold statusOf
    cases entry.2.isExcluded c <;> cases entry.2.hasTarget c <;> simp

/-- The rules of a walk with their printed lines. -/
def shownRules (c : Config) (sheet : Stylesheet) : List ((List AtHead × Rule) × Text) :=
  sheet.walk.map fun e => (e, Text.stripSequences (ruleLine c e.1 e.2))

/-- As many lines start with a word as there are rules of the status that it stands for. -/
theorem countLines_shownRules (c : Config) (sheet : Stylesheet) (word : Text) (status : Status)
    (h : ∀ entry line, ShowsRule c entry line → (word <+: line ↔ statusOf c entry.2 = status)) :
    countLines word ((shownRules c sheet).map Prod.snd) =
      (sheet.rules.filter (statusOf c · = status)).length := by
  rw [countLines, shownRules, Stylesheet.rules, List.map_map, List.filter_map, List.filter_map,
    List.length_map, List.length_map]
  refine congrArg List.length (List.filter_congr fun e _ => ?_)
  have hword := h e _ (showsRule_ruleLine c e)
  exact Bool.eq_iff_iff.2 (List.isPrefixOf_iff_prefix.trans (hword.trans (by simp)))

/-- The rules that are shown are those of the walk. -/
theorem map_fst_shownRules (c : Config) (sheet : Stylesheet) :
    (shownRules c sheet).map Prod.fst = sheet.walk := by
  rw [shownRules, List.map_map]
  exact List.map_id _

/-- The printed text, with the numbers of the summary counted from the lines. The program counts
them from the rules instead, which comes to the same because each line starts with its word. -/
theorem listing_eq (c : Config) (sheet : Stylesheet) :
    listing c sheet = ((shownRules c sheet).flatMap fun e => e.2 ++ ['\n']) ++ ['\n'] ++
      summaryLine ((shownRules c sheet).map Prod.snd) ++ ['\n'] := by
  have hsummary : ("Summary: " ++ countStatus c sheet .eligible ++ " match, " ++
      countStatus c sheet .excluded ++ " excluded, " ++ countStatus c sheet .skipped ++
      " skip" : Text) = summaryLine ((shownRules c sheet).map Prod.snd) := by
    unfold summaryLine countStatus
    rw [countLines_shownRules c sheet "match" .eligible fun _ _ h => h.isPrefixOf_iff.1,
      countLines_shownRules c sheet "excluded" .excluded fun _ _ h => h.isPrefixOf_iff.2.1,
      countLines_shownRules c sheet "skip" .skipped fun _ _ h => h.isPrefixOf_iff.2.2]
  -- no sequences in the last line: it has digits and fixed words only
  have hlast : say (summaryLine ((shownRules c sheet).map Prod.snd)) =
      summaryLine ((shownRules c sheet).map Prod.snd) ++ ['\n'] := by
    rw [say_eq, Text.stripSequences_eq_self (plain_summaryLine _).2]
  have hempty : say [] = ['\n'] := by rw [say_eq, Text.stripSequences, List.nil_append]
  have hbody : (sheet.walk.flatMap fun entry => say (ruleLine c entry.1 entry.2)) =
      (shownRules c sheet).flatMap fun e => e.2 ++ ['\n'] := by
    rw [shownRules, List.flatMap_map]
    simp only [say_eq]
  rw [listing, hsummary, hlast, hempty, hbody, List.append_assoc _ _ ['\n']]

/-- **What is printed is a listing.** Its lines are those of the rules in their order, its numbers
are those of the rules of the tree, and it can be cut back into its lines if no line holds a line
feed. -/
theorem listing_listing (c : Config) (sheet : Stylesheet) :
    Listing c sheet (sheet.rules.filter (·.isEligible c)).length sheet.rules.length
      (shownRules c sheet) (listing c sheet) := by
  have hline : ∀ e ∈ shownRules c sheet, ShowsRule c e.1 e.2 := by
    intro e he
    obtain ⟨entry, -, rfl⟩ := List.mem_map.1 he
    exact showsRule_ruleLine c entry
  have hmatch := countLines_shownRules c sheet "match" .eligible fun _ _ h => h.isPrefixOf_iff.1
  have hexcluded :=
    countLines_shownRules c sheet "excluded" .excluded fun _ _ h => h.isPrefixOf_iff.2.1
  have hskip := countLines_shownRules c sheet "skip" .skipped fun _ _ h => h.isPrefixOf_iff.2.2
  refine ⟨?_, hline, ?_, listing_eq c sheet, ?_, ?_, ?_⟩
  · rw [map_fst_shownRules]
    exact sheet.listsRules_walk
  · intro e he
    exact (hline e he).isPrefixOf_iff.1.trans (statusOf_eq_eligible_iff _)
  · rw [hmatch]
    refine congrArg List.length (List.filter_congr fun r _ => ?_)
    exact Bool.eq_iff_iff.2 (by simpa using statusOf_eq_eligible_iff r)
  · rw [hmatch, hexcluded, hskip, length_filter_statusOf]
  · -- if no selector has a line feed, the listing is cut back into its lines
    intro hplain
    obtain ⟨hfeed, -⟩ := plain_summaryLine ((shownRules c sheet).map Prod.snd)
    have hlines : ∀ line ∈ (shownRules c sheet).map Prod.snd, '\n' ∉ line := by
      intro line hmem
      obtain ⟨e, he, rfl⟩ := List.mem_map.1 hmem
      exact hplain e he
    have hbody : ((shownRules c sheet).flatMap fun e => e.2 ++ ['\n']) =
        ((shownRules c sheet).map Prod.snd).flatMap (· ++ ['\n']) := by rw [List.flatMap_map]
    have hlast : List.splitOn '\n' (['\n'] ++ (summaryLine ((shownRules c sheet).map Prod.snd) ++
        ['\n'])) = [[], summaryLine ((shownRules c sheet).map Prod.snd), []] := by
      rw [List.singleton_append, ← List.nil_append ('\n' :: _),
        List.splitOn_append_cons_self_of_not_mem List.not_mem_nil,
        List.splitOn_append_cons_self_of_not_mem hfeed]
      rfl
    rw [listing_eq, hbody, List.append_assoc, List.append_assoc, splitOn_flatMap_newline hlines,
      hlast]

end Command

end CssHints
