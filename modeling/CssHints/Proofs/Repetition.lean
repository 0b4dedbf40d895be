import CssHints.Proofs.Meaning
import CssHints.Proofs.RoundTrip

/-!
# `CssHints.Proofs.Repetition`: a source that is run again and again

The output of a run is a source for the next one. Hints are appended whether or not they are there
already, so each run adds one more copy of them to the rules that take hints. `rerun_gains` says
that nothing else happens, however often the runs are repeated and in whatever layouts they write.

Three facts carry the induction on the runs.

* The hints are safe declarations (`safe_hint`), so a safe tree stays safe and reads back from the
  output (`renderSafe_gain`).
* A rule takes hints after a run if and only if it took them before (`isEligible_gain`): hints go
  only to rules that take them, so they cannot turn a rule into one that does.
* A further run turns `n` copies into `n + 1` (`gain_succ`).
-/

set_option autoImplicit false

namespace CssHints

open Token (Clean EndsImportant IsSingle cut next words)

/-! ### The statement -/

/-- The text after one run for each of the layouts, each run on the output of the one before. -/
def rerun (c : Config) (source : Text) (layouts : List Layout) : Text :=
  layouts.foldl (fun s layout => (accelerate s c layout []).output) source

/-- `r'` is the rule with `n` copies of the hints behind its declarations if it takes hints, and the
rule as it was if it does not. -/
structure Rule.Gains (c : Config) (n : Nat) (r r' : Rule) : Prop where
  selectors : r'.selectors = r.selectors
  matching : r.Matches c → r'.decls = r.decls ++ (List.replicate n c.hints).flatten
  other : ¬r.Matches c → r'.decls = r.decls

/-- Whether a rule takes hints can be computed. -/
instance (r : Rule) (c : Config) : Decidable (r.Matches c) :=
  decidable_of_iff (r.isEligible c = true) Rule.isEligible_iff

/-! ### Changing the rules of a tree -/

mutual

/-- Changing the rules of a node twice is changing them once by both changes. -/
theorem Node.mapRules_mapRules (f g : Rule → Rule) :
    (n : Node) → (n.mapRules f).mapRules g = n.mapRules (g ∘ f)
  | .rule _ => rfl
  | .block head children decls => by
      show Node.block head (Stylesheet.mapRules g (Stylesheet.mapRules f children)) decls = _
      rw [Stylesheet.mapRules_mapRules f g children]
      rfl
  | .statement _ => rfl
  | .stray _ => rfl

/-- Changing the rules of a tree twice is changing them once by both changes. -/
theorem Stylesheet.mapRules_mapRules (f g : Rule → Rule) :
    (ns : List Node) →
      Stylesheet.mapRules g (Stylesheet.mapRules f ns) = Stylesheet.mapRules (g ∘ f) ns
  | [] => rfl
  | n :: ns => by
      simp only [Stylesheet.mapRules]
      rw [Node.mapRules_mapRules f g n, Stylesheet.mapRules_mapRules f g ns]

end

mutual

/-- A node whose rules stay as they are stays as it is. -/
theorem Node.mapRules_id : (n : Node) → n.mapRules id = n
  | .rule _ => rfl
  | .block head children decls => by
      show Node.block head (Stylesheet.mapRules id children) decls = _
      rw [Stylesheet.mapRules_id children]
  | .statement _ => rfl
  | .stray _ => rfl

/-- A tree whose rules stay as they are stays as it is. -/
theorem Stylesheet.mapRules_id : (ns : List Node) → Stylesheet.mapRules id ns = ns
  | [] => rfl
  | n :: ns => by
      rw [Stylesheet.mapRules, Node.mapRules_id n, Stylesheet.mapRules_id ns]

end

mutual

/-- A walk through a changed node finds the changed rules, below the same at-rules. -/
theorem Node.walk_mapRules (f : Rule → Rule) (parents : List AtHead) :
    (n : Node) → (n.mapRules f).walk parents = (n.walk parents).map fun e => (e.1, f e.2)
  | .rule _ => rfl
  | .block head children _ => Stylesheet.walkBelow_mapRules f (parents ++ [head]) children
  | .statement _ => rfl
  | .stray _ => rfl

/-- A walk through a changed tree finds the changed rules, below the same at-rules. -/
theorem Stylesheet.walkBelow_mapRules (f : Rule → Rule) (parents : List AtHead) :
    (ns : List Node) → Stylesheet.walkBelow parents (Stylesheet.mapRules f ns)
      = (Stylesheet.walkBelow parents ns).map fun e => (e.1, f e.2)
  | [] => rfl
  | n :: ns => by
      simp only [Stylesheet.mapRules, Stylesheet.walkBelow, List.map_append]
      rw [Node.walk_mapRules f parents n, Stylesheet.walkBelow_mapRules f parents ns]

end

/-- The rules of a changed tree are the changed rules, in the same order. -/
theorem Stylesheet.rules_mapRules (f : Rule → Rule) (sheet : Stylesheet) :
    Stylesheet.rules (Stylesheet.mapRules f sheet) = sheet.rules.map f := by
  simp only [Stylesheet.rules, Stylesheet.walk]
  rw [Stylesheet.walkBelow_mapRules, List.map_map, List.map_map]
  rfl

/-- The change keeps the selectors of a rule and adds safe declarations only. -/
def Rule.AddsSafely (f : Rule → Rule) : Prop :=
  ∀ r, (f r).selectors = r.selectors ∧ ∀ d ∈ (f r).decls, d ∈ r.decls ∨ safe.declaration d

mutual

/-- A node of the grammar stays one if its rules keep their selectors. -/
theorem Node.fits_mapRules {f : Rule → Rule} (hf : Rule.AddsSafely f) {d : Nat} :
    (n : Node) → n.Fits d → (n.mapRules f).Fits d
  | .rule r, h => by
      show (f r).selectors ≠ []
      rw [(hf r).1]
      exact h
  | .block _ children _, h => by
      rcases h with ⟨hbase, hdepth, hdecls, hchildren⟩ | ⟨hbase, rfl⟩
      · exact .inl ⟨hbase, hdepth, hdecls, Stylesheet.fits_mapRules hf children hchildren⟩
      · exact .inr ⟨hbase, rfl⟩
  | .statement _, h => h
  | .stray _, h => h

/-- A tree of the grammar stays one if its rules keep their selectors. -/
theorem Stylesheet.fits_mapRules {f : Rule → Rule} (hf : Rule.AddsSafely f) {d : Nat} :
    (ns : List Node) → Stylesheet.Fits d ns → Stylesheet.Fits d (Stylesheet.mapRules f ns)
  | [], _ => trivial
  | n :: ns, h => ⟨Node.fits_mapRules hf n h.1, Stylesheet.fits_mapRules hf ns h.2⟩

end

mutual

/-- The parts of a node stay safe if only safe declarations are added. -/
theorem Node.each_mapRules {f : Rule → Rule} (hf : Rule.AddsSafely f) :
    (n : Node) → n.Each safe → (n.mapRules f).Each safe
  | .rule r, h => by
      refine ⟨?_, ?_⟩
      · rw [(hf r).1]
        exact h.1
      · intro d hd
        rcases (hf r).2 d hd with hold | hnew
        · exact h.2 d hold
        · exact hnew
  | .block _ children _, h => ⟨h.1, h.2.1, Stylesheet.each_mapRules hf children h.2.2⟩
  | .statement _, h => h
  | .stray _, h => h

/-- The parts of a tree stay safe if only safe declarations are added. -/
theorem Stylesheet.each_mapRules {f : Rule → Rule} (hf : Rule.AddsSafely f) :
    (ns : List Node) → Stylesheet.Each safe ns → Stylesheet.Each safe (Stylesheet.mapRules f ns)
  | [], _ => trivial
  | n :: ns, h => ⟨Node.each_mapRules hf n h.1, Stylesheet.each_mapRules hf ns h.2⟩

end

/-! ### Hints are safe declarations -/

/-- A value that is a single token is clean, and it ends with no mark of importance, which takes two
tokens. -/
theorem safe_of_isSingle {property value : Text} {k : Kind} (hproperty : IsSingle .ident property)
    (hvalue : IsSingle k value) (hne : value ≠ []) (htrim : Text.trim value = value)
    (hclosed : Grammar.ClosedRun [⟨k, value, .start⟩]) (hk : k ≠ .delim) :
    safe.declaration ⟨property, value, false⟩ := by
  refine ⟨hproperty, _, hvalue.clean hne htrim hclosed hk, ?_⟩
  rintro - ⟨front, bang, gap, word, he, -⟩
  -- the mark alone has two tokens
  have hlen := congrArg List.length he
  simp only [List.length_append, List.length_cons, List.length_nil] at hlen
  omega

/-- The value of the first hint has a group in it, so it is no single token; its four tokens make up
a clean text. -/
theorem Token.clean_translateZ :
    Clean "translateZ(0)" [⟨.ident, "translateZ", ⟨0, 1, 1⟩⟩, ⟨.lparen, "(", ⟨10, 1, 11⟩⟩,
      ⟨.number, "0", ⟨11, 1, 12⟩⟩, ⟨.rparen, ")", ⟨12, 1, 13⟩⟩] where
  words_eq := by
    have hcut : cut ['t', 'r', 'a', 'n', 's', 'l', 'a', 't', 'e', 'Z', '(', '0', ')'] =
        ⟨[.lexeme .ident ['t', 'r', 'a', 'n', 's', 'l', 'a', 't', 'e', 'Z'],
          .lexeme .lparen ['('], .lexeme .number ['0'], .lexeme .rparen [')']], none⟩ := by
      rw [cut_cons_of_next (show
          next 't' ['r', 'a', 'n', 's', 'l', 'a', 't', 'e', 'Z', '(', '0', ')']
          = .ok (.lexeme .ident _, ['(', '0', ')']) from rfl),
        cut_cons_of_next (show next '(' ['0', ')'] = .ok (.lexeme .lparen ['('], _) from rfl),
        cut_cons_of_next (show next '0' [')'] = .ok (.lexeme .number ['0'], _) from rfl),
        cut_cons_of_next (show next ')' [] = .ok (.lexeme .rparen [')'], _) from rfl), cut_nil]
      rfl
    show words ['t', 'r', 'a', 'n', 's', 'l', 'a', 't', 'e', 'Z', '(', '0', ')'] = _
    rw [words_eq_some_iff, hcut]
    exact ⟨rfl, rfl⟩
  closed := by decide
  last := by decide
  ne_nil := by decide
  trimmed := by decide
  concat_eq := by decide

/-- Every hint is a safe declaration: its property is one identifier, and its value is one token or,
for `transform`, a name with a group. So the text with the hints reads back as what was written. -/
theorem safe_hint (f : Flag) : safe.declaration f.hint := by
  have htransform : IsSingle .ident "transform" :=
    Token.isSingle_of_next (show next 't' ['r', 'a', 'n', 's', 'f', 'o', 'r', 'm'] = _ from rfl)
  cases f with
  | transform =>
      refine ⟨htransform, _, Token.clean_translateZ, ?_⟩
      rintro - ⟨front, bang, gap, word, he, -, -, hword⟩
      -- the last token is a bracket and no word
      have hlast := congrArg List.getLast? he
      rw [← List.cons_append, ← List.append_assoc, List.getLast?_concat] at hlast
      cases hlast
      exact absurd hword.1 (by decide)
  | willChange =>
      have hproperty : IsSingle .ident "will-change" := Token.isSingle_of_next
        (show next 'w' ['i', 'l', 'l', '-', 'c', 'h', 'a', 'n', 'g', 'e'] = _ from rfl)
      exact safe_of_isSingle hproperty htransform (by decide) (by decide) (by decide) (by decide)
  | backface =>
      have hproperty : IsSingle .ident "backface-visibility" := Token.isSingle_of_next
        (show next 'b' ['a', 'c', 'k', 'f', 'a', 'c', 'e', '-', 'v', 'i', 's', 'i', 'b', 'i', 'l',
          'i', 't', 'y'] = _ from rfl)
      have hvalue : IsSingle .ident "hidden" :=
        Token.isSingle_of_next (show next 'h' ['i', 'd', 'd', 'e', 'n'] = _ from rfl)
      exact safe_of_isSingle hproperty hvalue (by decide) (by decide) (by decide) (by decide)
  | perspective =>
      have hproperty : IsSingle .ident "perspective" := Token.isSingle_of_next
        (show next 'p' ['e', 'r', 's', 'p', 'e', 'c', 't', 'i', 'v', 'e'] = _ from rfl)
      have hvalue : IsSingle .dimension "1000px" :=
        Token.isSingle_of_next (show next '1' ['0', '0', '0', 'p', 'x'] = _ from rfl)
      exact safe_of_isSingle hproperty hvalue (by decide) (by decide) (by decide) (by decide)

/-- **What the hints are.** Each switch that is on stands for one declaration, and the declarations
come in the order of the switches, whatever the lists of the settings hold. -/
theorem Config.hints_eq (c : Config) :
    c.hints = (if c.transform then [⟨"transform", "translateZ(0)", false⟩] else []) ++
      (if c.willChange then [⟨"will-change", "transform", false⟩] else []) ++
      (if c.backface then [⟨"backface-visibility", "hidden", false⟩] else []) ++
      (if c.perspective then [⟨"perspective", "1000px", false⟩] else []) := by
  obtain ⟨transform, willChange, backface, perspective, exclude, target⟩ := c
  cases transform <;> cases willChange <;> cases backface <;> cases perspective <;> rfl

/-- The hints of any settings are safe declarations. -/
theorem safe_of_mem_hints {c : Config} {d : Declaration} (h : d ∈ c.hints) :
    safe.declaration d := by
  obtain ⟨f, -, rfl⟩ := List.mem_map.1 h
  exact safe_hint f

/-! ### Copies of the hints -/

/-- The rule with `n` copies of the hints, if it takes hints. -/
def Rule.gain (c : Config) (n : Nat) (r : Rule) : Rule :=
  if r.isEligible c then r.append (List.replicate n c.hints).flatten else r

/-- Without copies of the hints a rule stays as it is. -/
theorem Rule.gain_zero (c : Config) : Rule.gain c 0 = id := by
  funext r
  unfold Rule.gain
  split <;> simp [Rule.append]

/-- A rule with copies of the hints has gained them in the sense of `Gains`. -/
theorem Rule.gains_gain (c : Config) (n : Nat) (r : Rule) : r.Gains c n (r.gain c n) := by
  refine ⟨?_, ?_, ?_⟩
  · unfold Rule.gain
    split <;> rfl
  · intro h
    rw [Rule.gain, if_pos (Rule.isEligible_iff.2 h)]
    rfl
  · intro h
    rw [Rule.gain, if_neg (fun he => h (Rule.isEligible_iff.1 he))]

/-- Copies of the hints leave the selectors alone, and are safe. So a tree with any number of copies
is one that can be read back. -/
theorem Rule.addsSafely_gain (c : Config) (n : Nat) : Rule.AddsSafely (Rule.gain c n) := by
  intro r
  refine ⟨(r.gains_gain c n).selectors, ?_⟩
  intro d hd
  unfold Rule.gain at hd
  split at hd
  · rcases List.mem_append.1 hd with hold | hnew
    · exact .inl hold
    · obtain ⟨ds, hds, hd⟩ := List.mem_flatten.1 hnew
      rw [List.eq_of_mem_replicate hds] at hd
      exact .inr (safe_of_mem_hints hd)
  · exact .inl hd

/-- A safe tree stays safe with any number of copies of the hints. -/
theorem renderSafe_gain {sheet : Stylesheet} (h : sheet.RenderSafe) (c : Config) (n : Nat) :
    Stylesheet.RenderSafe (Stylesheet.mapRules (Rule.gain c n) sheet) :=
  ⟨Stylesheet.fits_mapRules (Rule.addsSafely_gain c n) sheet h.1,
    Stylesheet.each_mapRules (Rule.addsSafely_gain c n) sheet h.2⟩

/-- Further declarations keep a rule that takes hints among those that do: its selectors stay, and
the property with a target is still there. -/
theorem Rule.isEligible_append {c : Config} {r : Rule} (h : r.isEligible c = true)
    (ds : List Declaration) : (r.append ds).isEligible c = true := by
  rw [Rule.isEligible_iff] at h ⊢
  obtain ⟨hselectors, d, hd, htarget⟩ := h
  exact ⟨hselectors, d, List.mem_append_left _ hd, htarget⟩

/-- A rule takes hints with copies of them if and only if it does without: only those that take
hints get any. -/
@[simp] theorem Rule.isEligible_gain (c : Config) (n : Nat) (r : Rule) :
    (r.gain c n).isEligible c = r.isEligible c := by
  unfold Rule.gain
  split
  · rename_i h
    rw [h]
    exact Rule.isEligible_append h _
  · rfl

/-- A run turns `n` copies of the hints into `n + 1`. -/
theorem Rule.gain_succ (c : Config) (n : Nat) (r : Rule) :
    (Transform.applyAll [Transform.hints c] (r.gain c n)).1 = r.gain c (n + 1) := by
  simp only [Transform.applyAll, Transform.hints, Rule.isEligible_gain]
  by_cases h : r.isEligible c = true
  · have hcopies : (List.replicate n c.hints).flatten ++ c.hints
        = (List.replicate (n + 1) c.hints).flatten := by
      rw [List.replicate_succ', List.flatten_append, List.flatten_singleton]
    simp only [Rule.gain, if_pos h, Rule.append_append, hcopies]
  · simp [Rule.gain, h, Rule.append]

/-- A run on a tree with `n` copies of the hints gives the tree with `n + 1`. -/
theorem Stylesheet.transform_gain (sheet : Stylesheet) (c : Config) (n : Nat) :
    (Stylesheet.transform (Stylesheet.mapRules (Rule.gain c n) sheet) c []).1
      = Stylesheet.mapRules (Rule.gain c (n + 1)) sheet := by
  have hstep : (fun r => (Transform.applyAll [Transform.hints c] r).1) ∘ Rule.gain c n
      = Rule.gain c (n + 1) := funext (Rule.gain_succ c n)
  rw [Stylesheet.transform, Stylesheet.mapRules_mapRules, hstep]

/-! ### One run and all runs -/

/-- One run on a source with `n` copies gives a source with `n + 1`: the tree stays safe, so the
output reads as the tree that was written. -/
theorem ofSource_output_gain {sheet : Stylesheet} (hsafe : sheet.RenderSafe) {c : Config} {n : Nat}
    {s : Text} (h : Stylesheet.ofSource s = .ok (Stylesheet.mapRules (Rule.gain c n) sheet))
    (layout : Layout) :
    Stylesheet.ofSource (accelerate s c layout []).output
      = .ok (Stylesheet.mapRules (Rule.gain c (n + 1)) sheet) := by
  have hnext := renderSafe_gain hsafe c (n + 1)
  rw [(accelerate_of_ok h c layout []).2, Stylesheet.transform_gain]
  exact ofSource_render hnext.1 (Stylesheet.Each.imp safe_implies_wellFormed _ hnext.2)
    (Stylesheet.Each.imp (safe_implies_faithful layout) _ hnext.2)

/-- The runs add one copy each. The induction is on the layouts, and the source that the runs start
from has some copies already. -/
theorem ofSource_rerun {sheet : Stylesheet} (hsafe : sheet.RenderSafe) {c : Config} {n : Nat}
    {s : Text} (h : Stylesheet.ofSource s = .ok (Stylesheet.mapRules (Rule.gain c n) sheet))
    (layouts : List Layout) :
    Stylesheet.ofSource (rerun c s layouts)
      = .ok (Stylesheet.mapRules (Rule.gain c (n + layouts.length)) sheet) := by
  induction layouts generalizing s n with
  | nil => exact h
  | cons layout layouts ih =>
      have hrest := ih (ofSource_output_gain hsafe h layout)
      rw [List.length_cons, show n + (layouts.length + 1) = n + 1 + layouts.length by omega]
      exact hrest

/-- Copies of the hints change neither the number of rules nor which of them take hints. -/
theorem length_rules_gain (sheet : Stylesheet) (c : Config) (n : Nat) :
    (Stylesheet.rules (Stylesheet.mapRules (Rule.gain c n) sheet)).length = sheet.rules.length ∧
      ((Stylesheet.rules (Stylesheet.mapRules (Rule.gain c n) sheet)).filter
        (·.isEligible c)).length = (sheet.rules.filter fun r => r.Matches c).length := by
  have hsame : (fun r : Rule => decide (r.Matches c)) = fun r => r.isEligible c := by
    funext r
    rw [Bool.eq_iff_iff, decide_eq_true_eq, Rule.isEligible_iff]
  have hgain : (fun r : Rule => r.isEligible c) ∘ Rule.gain c n = fun r => r.isEligible c :=
    funext (Rule.isEligible_gain c n)
  rw [Stylesheet.rules_mapRules, List.length_map, hsame, List.filter_map, List.length_map, hgain]
  exact ⟨rfl, rfl⟩

/-- **Repeated runs.** From a source with a safe tree, any number of runs in any layouts gives a
source whose tree has one more copy of the hints for each run, behind the declarations of exactly
the rules that took hints in the first tree. A further run reads it, and finds as many rules and as
many that take hints as the first one did. -/
theorem rerun_gains {source : Text} {sheet : Stylesheet} (c : Config)
    (hread : Stylesheet.ofSource source = .ok sheet) (hsafe : sheet.RenderSafe)
    (layouts : List Layout) :
    (∃ sheet', Stylesheet.Rewrites (Rule.Gains c layouts.length) sheet sheet' ∧
        Stylesheet.ofSource (rerun c source layouts) = .ok sheet') ∧
      ∀ layout,
        (accelerate (rerun c source layouts) c layout []).failure = none ∧
          (accelerate (rerun c source layouts) c layout []).total = sheet.rules.length ∧
          (accelerate (rerun c source layouts) c layout []).eligible
            = (sheet.rules.filter fun r => r.Matches c).length := by
  -- the source as it is has no copies yet
  have hstart : Stylesheet.ofSource source
      = .ok (Stylesheet.mapRules (Rule.gain c 0) sheet) := by
    rw [Rule.gain_zero, Stylesheet.mapRules_id, hread]
  have hrun := ofSource_rerun hsafe hstart layouts
  rw [Nat.zero_add] at hrun
  refine ⟨⟨_, Stylesheet.rewrites_mapRules (Rule.gains_gain c _) sheet, hrun⟩, ?_⟩
  intro layout
  obtain ⟨htotal, heligible, -⟩ := accelerate_counts_of_ok hrun c layout []
  obtain ⟨hrules, hmatching⟩ := length_rules_gain sheet c layouts.length
  exact ⟨(accelerate_of_ok hrun c layout []).1, htotal.trans hrules, heligible.trans hmatching⟩

/-- Two runs on a source with one rule that takes hints and one that does not, with the hints of two
switches. The hints stand twice behind the declaration of the first rule. -/
theorem rerun_gains_transition :
    Stylesheet.Rewrites (Rule.Gains { backface := false, perspective := false } 2)
        [.rule ⟨["x"], [⟨"transition", "x", false⟩]⟩, .rule ⟨["x"], []⟩]
        [.rule ⟨["x"], [⟨"transition", "x", false⟩,
          ⟨"transform", "translateZ(0)", false⟩, ⟨"will-change", "transform", false⟩,
          ⟨"transform", "translateZ(0)", false⟩, ⟨"will-change", "transform", false⟩]⟩,
          .rule ⟨["x"], []⟩] ∧
      Stylesheet.ofSource (rerun { backface := false, perspective := false }
          "x\x7btransition:x;\x7dx\x7b\x7d".toList [.spaced, .compact]) =
        .ok [.rule ⟨["x"], [⟨"transition", "x", false⟩,
          ⟨"transform", "translateZ(0)", false⟩, ⟨"will-change", "transform", false⟩,
          ⟨"transform", "translateZ(0)", false⟩, ⟨"will-change", "transform", false⟩]⟩,
          .rule ⟨["x"], []⟩] := by
  have hx : IsSingle .ident "x" := Token.isSingle_of_next (show next 'x' [] = _ from rfl)
  have hproperty : IsSingle .ident "transition" := Token.isSingle_of_next
    (show next 't' ['r', 'a', 'n', 's', 'i', 't', 'i', 'o', 'n'] = _ from rfl)
  -- the source is the text of a tree that is safe, so its tree is known
  have hsafe : Stylesheet.RenderSafe
      [.rule ⟨["x"], [⟨"transition", "x", false⟩]⟩, .rule ⟨["x"], []⟩] := by
    have hclean := hx.clean (by decide) (by decide) (by decide) (by decide)
    have hselectors : safe.selectors ["x"] := by
      refine ⟨fun s hs => ?_, fun s hs ts hwords t ht => ?_⟩
      · rw [List.mem_singleton.1 hs]
        exact ⟨_, hclean, by simp [Token.CommaFree]⟩
      · cases hs
        cases hx.symm.trans hwords
        cases ht
        decide
    refine ⟨⟨List.cons_ne_nil _ _, List.cons_ne_nil _ _, trivial⟩, ⟨hselectors, ?_⟩,
      ⟨hselectors, by simp⟩, trivial⟩
    intro d hd
    rw [List.mem_singleton.1 hd]
    exact safe_of_isSingle hproperty hx (by decide) (by decide) (by decide) (by decide)
  have hread := ofSource_render hsafe.1 (Stylesheet.Each.imp safe_implies_wellFormed _ hsafe.2)
    (Stylesheet.Each.imp (safe_implies_faithful .compact) _ hsafe.2)
  obtain ⟨⟨sheet', hgains, hlast⟩, -⟩ :=
    rerun_gains { backface := false, perspective := false } hread hsafe [.spaced, .compact]
  have htree : (Stylesheet.ofSource (rerun { backface := false, perspective := false }
      "x\x7btransition:x;\x7dx\x7b\x7d".toList [.spaced, .compact])).toOption =
      some [.rule ⟨["x"], [⟨"transition", "x", false⟩,
        ⟨"transform", "translateZ(0)", false⟩, ⟨"will-change", "transform", false⟩,
        ⟨"transform", "translateZ(0)", false⟩, ⟨"will-change", "transform", false⟩]⟩,
        .rule ⟨["x"], []⟩] := by decide +kernel
  have hsource : Stylesheet.render [.rule ⟨["x"], [⟨"transition", "x", false⟩]⟩, .rule ⟨["x"], []⟩]
      .compact = "x\x7btransition:x;\x7dx\x7b\x7d".toList := rfl
  rw [hsource] at hlast
  rw [hlast] at htree ⊢
  obtain rfl := Option.some.inj htree
  exact ⟨hgains, rfl⟩

end CssHints
