import CssHints.Proofs.Parsed
import CssHints.Report

/-!
# `CssHints.Proofs.Meaning`: what a source with hints means

`accelerate` reads, adds and writes. This module says what it does to the tree in between, in words
of its own: which rules take hints (`Rule.Matches`), what the further transforms append
(`Rule.Extends`), and that nothing but the declarations of rules changes (`Stylesheet.Rewrites`).

A transform sees a rule as the transforms before it have left it, whatever they have reported.
`Rule.Extends` says so without running them: the declarations that transform number `i` appends are
those that it gives for the rule with everything that the transforms before `i` have appended.
-/

set_option autoImplicit false

namespace CssHints

/-! ### What happens to a rule -/

/-- The rule takes hints: no selector has an excluded text as a stretch of it, and some property
has a target as a stretch of it. Empty entries count for nothing. -/
def Rule.Matches (r : Rule) (c : Config) : Prop :=
  (∀ s ∈ r.selectors, ∀ e ∈ c.exclude, e ≠ [] → ¬e <:+: s) ∧
    ∃ d ∈ r.decls, ∃ e ∈ c.target, e ≠ [] ∧ e <:+: d.property

/-- `base` is the rule with the hints of the settings behind its declarations, if it takes any. -/
structure Rule.Hinted (c : Config) (r base : Rule) : Prop where
  selectors : base.selectors = r.selectors
  matching : r.Matches c → base.decls = r.decls ++ c.hints
  other : ¬r.Matches c → base.decls = r.decls

/-- The transforms append `added` to the rule, one list of declarations for each transform. -/
structure Rule.Extends (ts : List Transform) (r : Rule) (added : List (List Declaration)) :
    Prop where
  length : added.length = ts.length
  each : ∀ (i : Nat) (t : Transform), ts[i]? = some t →
    added[i]? = some (t (r.append (added.take i).flatten)).1

/-- What becomes of a rule: the hints go behind its declarations if it takes any, and behind them
what the further transforms append. -/
def Rule.Becomes (c : Config) (more : List Transform) (r r' : Rule) : Prop :=
  ∃ base added, r.Hinted c base ∧ base.Extends more added ∧ r' = base.append added.flatten

mutual

/-- The second node is the first with each rule in it, at any depth, changed as `R` says. -/
inductive Node.Rewrites (R : Rule → Rule → Prop) : Node → Node → Prop
  | rule {r r' : Rule} : R r r' → Node.Rewrites R (.rule r) (.rule r')
  | block {head : AtHead} {children children' : List Node} {decls : List Declaration} :
      Stylesheet.Rewrites R children children' →
      Node.Rewrites R (.block head children decls) (.block head children' decls)
  | statement {head : AtHead} : Node.Rewrites R (.statement head) (.statement head)
  | stray {text : Text} : Node.Rewrites R (.stray text) (.stray text)

/-- The second list is the first with each rule in it, at any depth, changed as `R` says. -/
inductive Stylesheet.Rewrites (R : Rule → Rule → Prop) : List Node → List Node → Prop
  | nil : Stylesheet.Rewrites R [] []
  | cons {n n' : Node} {ns ns' : List Node} : Node.Rewrites R n n' →
      Stylesheet.Rewrites R ns ns' → Stylesheet.Rewrites R (n :: ns) (n' :: ns')

end

/-! ### Which rules take hints -/

/-- The test for a stretch of text is the test of being a contiguous sublist. -/
theorem Text.occursIn_iff {w s : Text} : w.occursIn s = true ↔ w <:+: s := by
  induction s with
  | nil => simp [Text.occursIn]
  | cons c s ih =>
      rw [Text.occursIn, Bool.or_eq_true, List.isPrefixOf_iff_prefix, ih, List.infix_cons_iff]

/-- A text holds one of the entries if an entry that is not empty is a stretch of it. -/
theorem holdsEntry_iff {entries : List Text} {s : Text} :
    holdsEntry entries s = true ↔ ∃ e ∈ entries, e ≠ [] ∧ e <:+: s := by
  simp [holdsEntry, Text.occursIn_iff]

/-- The computed test for rules that take hints says what `Matches` says: one half of it is about
the selectors and what is excluded, the other about the properties and the targets. -/
theorem Rule.isEligible_iff {r : Rule} {c : Config} : r.isEligible c = true ↔ r.Matches c := by
  have hexcluded : r.isExcluded c = false ↔
      ∀ s ∈ r.selectors, ∀ e ∈ c.exclude, e ≠ [] → ¬e <:+: s := by
    rw [Rule.isExcluded, List.any_eq_false]
    constructor
    · intro h s hs e he hne hin
      exact h s hs (holdsEntry_iff.2 ⟨e, he, hne, hin⟩)
    · intro h s hs hholds
      obtain ⟨e, he, hne, hin⟩ := holdsEntry_iff.1 hholds
      exact h s hs e he hne hin
  have htarget : r.hasTarget c = true ↔
      ∃ d ∈ r.decls, ∃ e ∈ c.target, e ≠ [] ∧ e <:+: d.property := by
    rw [Rule.hasTarget, Rule.properties, List.any_map, List.any_eq_true]
    constructor
    · rintro ⟨d, hd, hholds⟩
      exact ⟨d, hd, holdsEntry_iff.1 hholds⟩
    · rintro ⟨d, hd, hholds⟩
      exact ⟨d, hd, holdsEntry_iff.2 hholds⟩
  rw [Rule.isEligible, Bool.and_eq_true, Bool.not_eq_true', hexcluded, htarget, Rule.Matches]

/-- Appending what the first transform gives makes the rule with hints: all of them if the rule
takes hints, and nothing otherwise. -/
theorem Rule.hinted_append (c : Config) (r : Rule) :
    r.Hinted c (r.append (Transform.hints c r).1) := by
  refine ⟨rfl, ?_, ?_⟩
  · intro h
    rw [Transform.hints, if_pos (Rule.isEligible_iff.2 h)]
    rfl
  · intro h
    rw [Transform.hints, if_neg (fun he => h (Rule.isEligible_iff.1 he))]
    exact List.append_nil _

/-! ### What the transforms append -/

/-- Appending twice is appending both lists at once. -/
theorem Rule.append_append (r : Rule) (ds es : List Declaration) :
    (r.append ds).append es = r.append (ds ++ es) := by
  simp [Rule.append]

/-- The first transform sees the rule, and the others see what it has left. What they append then
stands behind what the first one has appended. -/
theorem Rule.Extends.cons {t : Transform} {ts : List Transform} {r : Rule}
    {added : List (List Declaration)} (h : (r.append (t r).1).Extends ts added) :
    r.Extends (t :: ts) ((t r).1 :: added) := by
  refine ⟨by simp [h.length], ?_⟩
  intro i u hu
  cases i with
  | zero =>
      obtain rfl : t = u := by simpa using hu
      simp [Rule.append]
  | succ i =>
      rw [List.getElem?_cons_succ] at hu ⊢
      -- transform `i + 1` sees the first list and `i` lists of the others
      rw [h.each i u hu, List.take_succ_cons, List.flatten_cons, Rule.append_append]

/-- Running transforms one after the other appends one list of declarations for each of them. The
induction is on the transforms, for all rules, since each step hands on a longer rule. -/
theorem Transform.exists_extends (ts : List Transform) (r : Rule) :
    ∃ added, r.Extends ts added ∧ (Transform.applyAll ts r).1 = r.append added.flatten := by
  induction ts generalizing r with
  | nil => exact ⟨[], ⟨rfl, by simp⟩, by simp [Transform.applyAll, Rule.append]⟩
  | cons t ts ih =>
      obtain ⟨added, hext, happly⟩ := ih (r.append (t r).1)
      refine ⟨(t r).1 :: added, hext.cons, ?_⟩
      rw [Transform.applyAll, happly, Rule.append_append, List.flatten_cons]

/-- What the transform of the hints and the further transforms make of a rule is what `Becomes`
says. -/
theorem Rule.becomes_applyAll (c : Config) (more : List Transform) (r : Rule) :
    r.Becomes c more (Transform.applyAll (Transform.hints c :: more) r).1 := by
  obtain ⟨added, hext, happly⟩ := Transform.exists_extends more (r.append (Transform.hints c r).1)
  exact ⟨_, added, Rule.hinted_append c r, hext, happly⟩

/-! ### The whole tree -/

mutual

/-- Changing each rule of a node by a function is a rewriting, for any relation that the function
obeys. -/
theorem Node.rewrites_mapRules {R : Rule → Rule → Prop} {f : Rule → Rule} (h : ∀ r, R r (f r)) :
    (n : Node) → n.Rewrites R (n.mapRules f)
  | .rule r => .rule (h r)
  | .block _ children _ => .block (Stylesheet.rewrites_mapRules h children)
  | .statement _ => .statement
  | .stray _ => .stray

/-- Changing each rule of a tree by a function is a rewriting, for any relation that the function
obeys. -/
theorem Stylesheet.rewrites_mapRules {R : Rule → Rule → Prop} {f : Rule → Rule}
    (h : ∀ r, R r (f r)) : (ns : List Node) → Stylesheet.Rewrites R ns (Stylesheet.mapRules f ns)
  | [] => .nil
  | n :: ns => .cons (Node.rewrites_mapRules h n) (Stylesheet.rewrites_mapRules h ns)

end

mutual

/-- Changing the rules of a node makes no text stray and removes none. -/
theorem Node.stray?_mapRules (f : Rule → Rule) : (n : Node) → (n.mapRules f).stray? = n.stray?
  | .rule _ => rfl
  | .block _ children _ => Stylesheet.stray?_mapRules f children
  | .statement _ => rfl
  | .stray _ => rfl

/-- Changing the rules of a tree makes no text stray and removes none, so it can be written if and
only if it could be before. -/
theorem Stylesheet.stray?_mapRules (f : Rule → Rule) :
    (ns : List Node) → Stylesheet.stray? (Stylesheet.mapRules f ns) = Stylesheet.stray? ns
  | [] => rfl
  | n :: ns => by
      rw [Stylesheet.mapRules, Stylesheet.stray?, Node.stray?_mapRules f n,
        Stylesheet.stray?_mapRules f ns, Stylesheet.stray?]

end

/-- A source that is no stylesheet comes back as it is, with the error. The notices depend on how
far the parser came, and nothing else of the report does. -/
theorem accelerate_of_error {source : Text} {e : SourceError}
    (h : Stylesheet.ofSource source = .error e) (c : Config) (layout : Layout)
    (more : List Transform) :
    ∃ notices, accelerate source c layout more =
      { output := source, failure := some e, notices := notices } := by
  rw [Stylesheet.ofSource] at h
  exact ⟨_, by simp only [accelerate, h]; rfl⟩

/-- For a stylesheet, nothing fails and the output is the written form of the transformed tree. -/
theorem accelerate_of_ok {source : Text} {sheet : Stylesheet}
    (h : Stylesheet.ofSource source = .ok sheet) (c : Config) (layout : Layout)
    (more : List Transform) :
    (accelerate source c layout more).failure = none ∧
      (accelerate source c layout more).output = (sheet.transform c more).1.render layout := by
  rw [Stylesheet.ofSource] at h
  simp only [accelerate, h, true_and]

/-- For a stylesheet, the counts are those of its tree: all rules, those eligible before anything
was added, and those for which a transform reported a change. -/
theorem accelerate_counts_of_ok {source : Text} {sheet : Stylesheet}
    (h : Stylesheet.ofSource source = .ok sheet) (c : Config) (layout : Layout)
    (more : List Transform) :
    (accelerate source c layout more).total = sheet.rules.length ∧
      (accelerate source c layout more).eligible = (sheet.rules.filter (·.isEligible c)).length ∧
      (accelerate source c layout more).changed = (sheet.transform c more).2 := by
  rw [Stylesheet.ofSource] at h
  simp only [accelerate, h, true_and]

/-- **What a run gives.** A source that is no stylesheet comes back as it is, with the error and
all counts zero. Otherwise the output is the written form of the tree of the source in which each
rule has become what `Rule.Becomes` says, and nothing else has changed. -/
theorem accelerate_meaning (source : Text) (c : Config) (layout : Layout)
    (more : List Transform) :
    match Stylesheet.ofSource source with
    | .error e =>
      (accelerate source c layout more).output = source ∧
        (accelerate source c layout more).total = 0 ∧
        (accelerate source c layout more).eligible = 0 ∧
        (accelerate source c layout more).changed = 0 ∧
        (accelerate source c layout more).failure = some e
    | .ok sheet =>
      (accelerate source c layout more).failure = none ∧
        ∃ sheet', Stylesheet.Rewrites (Rule.Becomes c more) sheet sheet' ∧
          Stylesheet.render? sheet' layout = .ok (accelerate source c layout more).output := by
  cases h : Stylesheet.ofSource source with
  | error e =>
      obtain ⟨notices, hrun⟩ := accelerate_of_error h c layout more
      rw [hrun]
      exact ⟨rfl, rfl, rfl, rfl, rfl⟩
  | ok sheet =>
      obtain ⟨hfailure, houtput⟩ := accelerate_of_ok h c layout more
      refine ⟨hfailure, (sheet.transform c more).1, ?_, ?_⟩
      · exact Stylesheet.rewrites_mapRules (Rule.becomes_applyAll c more) sheet
      · -- a tree that was read holds no stray text, so it can be written
        have hstray : Stylesheet.stray? (sheet.transform c more).1 = none := by
          rw [Stylesheet.transform, Stylesheet.stray?_mapRules]
          exact Stylesheet.stray?_of_fits sheet (fits_of_ofSource h)
        rw [Stylesheet.render?, hstray, houtput]

end CssHints
