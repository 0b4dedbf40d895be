import CssHints.Proofs.FileEffects
import CssHints.Proofs.JsonLimits
import CssHints.Proofs.Listing
import CssHints.Proofs.Meaning
import CssHints.Proofs.Storage

/-!
# `CssHints.Proofs.Inspection`: the two commands tell the same story

`inspect` lists the rules that `transform` would change. The two commands find their answers on
different ways: `inspect` walks the tree and derives a status from two tests, `transform` counts
the eligible rules, and only `transform` knows switches for single hints. This module says that the
answers agree, and where neither command has one.

* `loadConfig_agrees`: settings depend on the switches for hints in the flags only.
* `runTransform_stderr`: all that a `transform` tells, in its order.
* `run_agrees`: both commands stop at a file of settings that is too much for its reader, at one
  that is faulty, or at none. Otherwise both find the same error in the source or neither finds one,
  and then `inspect` prints a `Listing` with the numbers that `transform` reports.

A file of settings can be well-formed, and hold nothing but keys that are passed over, and still be
too much for the reader: an integer with more digits than it takes is enough (`RunsAgree.exceeds`).
Then neither command says why it ends.
-/

set_option autoImplicit false

namespace CssHints.Command

/-! ### Settings and statuses -/

/-- The two requests are about the same source and the same settings, switches for single hints
apart. -/
structure SameInputs (i : InspectRequest) (t : TransformRequest) : Prop where
  source : i.source = t.source
  path : i.config.path = t.config.path
  exclude : i.config.exclude = t.config.exclude
  target : i.config.target = t.config.target

/-- Requests about the same source and the same settings open the same files, or fail to open the
same one. -/
theorem SameInputs.openInputs {i : InspectRequest} {t : TransformRequest} (h : SameInputs i t)
    (tree : FileTree) (stdin : Bytes) :
    openInputs tree stdin i.source i.config = openInputs tree stdin t.source t.config := by
  rw [Command.openInputs, Command.openInputs, h.source, h.path]

/-- Switches for single hints decide neither whether the settings can be read nor what their lists
hold. -/
theorem loadConfig_agrees {r r' : ConfigRequest} (hexclude : r.exclude = r'.exclude)
    (htarget : r.target = r'.target) (file : Option (Text × Bytes)) (limits : Json.Limits) :
    (∃ e, loadConfig file r limits = .error e ∧ loadConfig file r' limits = .error e) ∨
      ∃ c c', loadConfig file r limits = .ok c ∧ loadConfig file r' limits = .ok c' ∧
        c.exclude = c'.exclude ∧ c.target = c'.target := by
  rw [loadConfig_eq, loadConfig_eq]
  cases baseConfig limits file with
  | error e => exact .inl ⟨e, rfl, rfl⟩
  | ok base =>
      refine .inr ⟨_, _, rfl, rfl, ?_, ?_⟩
      · simp only [ConfigRequest.override, hexclude]
      · simp only [ConfigRequest.override, htarget]

section Status

variable {c c' : Config}

/-- Only the two lists of the settings count for a status. -/
theorem statusOf_congr (hexclude : c.exclude = c'.exclude) (htarget : c.target = c'.target)
    (r : Rule) : statusOf c r = statusOf c' r := by
  simp [statusOf, Rule.isExcluded, Rule.hasTarget, hexclude, htarget]

/-- Only the two lists of the settings count for a listing. -/
theorem listing_congr (hexclude : c.exclude = c'.exclude) (htarget : c.target = c'.target)
    (sheet : Stylesheet) : listing c sheet = listing c' sheet := by
  simp only [listing, countStatus, ruleLine, statusOf_congr hexclude htarget]

end Status

/-! ### What the runs print -/

/-- The run has ended because the file of settings was too much for its reader, without a word. -/
def Outcome.IsExceeded (o : Outcome) (x : Json.Excess) : Prop :=
  o.ending = .exceeded x ∧ o.stdout = [] ∧ o.stderr = []

/-- The run has stopped because the settings could not be read, with a message that says so. -/
def Outcome.IsConfigError (o : Outcome) : Prop :=
  o.ending = .failure ∧ ∃ message, Text.Strips ("Config error: " ++ message ++ ['\n']) o.stderr

/-- The run has stopped because of the error in the source, with a message that tells it. -/
def Outcome.IsParseError (o : Outcome) (e : SourceError) : Prop :=
  o.ending = .failure ∧ o.stdout = [] ∧
    Text.Strips ("Parse error: " ++ e.message ++ ['\n']) o.stderr

/-- A first character that opens no control sequence is printed as it is. -/
theorem say_cons {c : Char} (hc : c ≠ '\x1b') (m : Text) : say (c :: m) = c :: say m := by
  rw [say, List.cons_append, Text.stripSequences, if_neg hc, say]

/-- The text does not start as a message about the settings does. Its first character tells, since
no other message of the program starts with that letter. -/
def NoConfigError (s : Text) : Prop := s.head? ≠ some 'C'

/-- Two messages that are not about the settings make up one that is not. -/
theorem NoConfigError.append {s t : Text} (hs : NoConfigError s) (ht : NoConfigError t) :
    NoConfigError (s ++ t) := by
  cases s with
  | nil => exact ht
  | cons c s => exact hs

/-- Any number of messages that are not about the settings make up one that is not. -/
theorem NoConfigError.flatMap {α : Type} {f : α → Text} (hf : ∀ a, NoConfigError (f a))
    (as : List α) : NoConfigError (as.flatMap f) := by
  induction as with
  | nil => simp [NoConfigError]
  | cons a as ih => exact (hf a).append ih

/-- A message is not about the settings if it starts with another letter. -/
theorem noConfigError_say {c : Char} (hc : c ≠ '\x1b') (hne : c ≠ 'C') (m : Text) :
    NoConfigError (say (c :: m)) := by
  rw [say_cons hc]
  simpa [NoConfigError] using hne

/-- A run has not stopped at its settings if what it tells starts otherwise. -/
theorem not_isConfigError {o : Outcome} (h : o.ending = .failure → NoConfigError o.stderr) :
    ¬o.IsConfigError := by
  rintro ⟨hending, message, hmessage⟩
  refine h hending ?_
  rw [Text.strips_iff.1 hmessage]
  exact congrArg List.head? (say_cons (by decide) _)

/-- What `transform` tells about a report before it writes the output. -/
def told (c : Config) (verbose : Bool) (report : Report) : Text :=
  idleWarning c ++ sayNotices verbose report.notices ++ failureMessage report

/-- What `transform` tells about a report does not start as a message about the settings does:
warnings, notices and errors in the source have other first letters. -/
theorem noConfigError_told (c : Config) (verbose : Bool) (report : Report) :
    NoConfigError (told c verbose report) := by
  refine .append (.append ?_ (.flatMap ?_ _)) ?_
  · unfold idleWarning
    split
    · simp [NoConfigError]
    · exact noConfigError_say (by decide) (by decide) _
  · intro n
    cases n <;> exact fun h => by cases h
  · unfold failureMessage
    split
    · simp [NoConfigError]
    · exact noConfigError_say (by decide) (by decide) _

/-- The words of `transform` about a run that has found no error. The numbers are written in digits,
so nothing of the message is taken out. -/
theorem summary_of_none {report : Report} (h : report.failure = none) :
    summary report = "Accelerated " ++ Text.ofNat report.changed ++ " of " ++
      Text.ofNat report.total ++ " rule block(s) (" ++ Text.ofNat report.eligible ++
      " matched)" ++ ['\n'] := by
  have hescape : ∀ n, '\x1b' ∉ Text.ofNat n := fun n => not_mem_ofNat (by decide) n
  unfold summary
  rw [h]
  dsimp only
  rw [say_eq, Text.stripSequences_eq_self (by simp [hescape])]

section Inputs

variable (tree : FileTree) (limits : Json.Limits) {inputs : Inputs} {i : InspectRequest}
  {t : TransformRequest}

/-- A run without settings has given up without a word just if they were too much. -/
theorem Outcome.isExceeded_ofConfigError_iff {e : ConfigError} {x : Json.Excess} :
    (Outcome.ofConfigError tree e).IsExceeded x ↔ e = .excess x := by
  cases e with
  | excess y =>
      constructor
      · rintro ⟨⟨⟩, -⟩
        rfl
      · rintro ⟨⟩
        exact ⟨rfl, rfl, rfl⟩
  | _ => exact iff_of_false (by rintro ⟨⟨⟩, -⟩) (by simp)

/-- In all other cases the run has told that the settings could not be read. -/
theorem Outcome.isConfigError_ofConfigError {e : ConfigError} (h : ∀ x, e ≠ .excess x) :
    (Outcome.ofConfigError tree e).IsConfigError := by
  cases e with
  | excess x => exact absurd rfl (h x)
  | _ => exact ⟨rfl, _, Text.strips_stripSequences _⟩

/-- Without settings an `inspect` ends as the error says. -/
theorem runInspect_of_error {e : ConfigError}
    (h : loadConfig inputs.config i.config limits = .error e) :
    runInspect tree inputs i limits = .ofConfigError tree e := by
  rw [runInspect, h]

/-- Without settings a `transform` ends as the error says, and so in the same way. -/
theorem runTransform_of_error {e : ConfigError}
    (h : loadConfig inputs.config t.config limits = .error e) :
    runTransform tree inputs t limits = .ofConfigError tree e := by
  rw [runTransform, h]

/-- With settings and a source that is no text, `inspect` says nothing about either. -/
theorem runInspect_of_fault {c : Config} {fault : Utf8.Fault}
    (h : loadConfig inputs.config i.config limits = .ok c)
    (hsource : readText inputs.source = .error fault) :
    runInspect tree inputs i limits = { ending := .unreadable fault, files := tree } := by
  simp only [runInspect, h, hsource]

/-- With settings and a source that is no stylesheet, `inspect` tells the error. -/
theorem runInspect_of_sourceError {c : Config} {css : Text} {e : SourceError}
    (h : loadConfig inputs.config i.config limits = .ok c)
    (hsource : readText inputs.source = .ok css) (hsheet : Stylesheet.ofSource css = .error e) :
    runInspect tree inputs i limits =
      { ending := .failure, stderr := say ("Parse error: " ++ e.message), files := tree } := by
  simp only [runInspect, h, hsource, hsheet]

/-- With settings and a stylesheet, `inspect` prints the listing and nothing else. -/
theorem runInspect_of_ok {c : Config} {css : Text} {sheet : Stylesheet}
    (h : loadConfig inputs.config i.config limits = .ok c)
    (hsource : readText inputs.source = .ok css) (hsheet : Stylesheet.ofSource css = .ok sheet) :
    runInspect tree inputs i limits =
      { ending := .success, stdout := listing c sheet, files := tree } := by
  simp only [runInspect, h, hsource, hsheet]

/-- With settings and a source that is text, `transform` tells about the report, and then it gives
up or ends well with a summary. -/
theorem runTransform_stderr {c : Config} {css : Text}
    (hconfig : loadConfig inputs.config t.config limits = .ok c)
    (hsource : readText inputs.source = .ok css) :
    ∃ last, (runTransform tree inputs t limits).stderr =
        told c t.verbose (accelerate css c t.layout []) ++ last ∧
      ((runTransform tree inputs t limits).ending = .failure ∧ NoConfigError last ∨
        (runTransform tree inputs t limits).ending = .success ∧
          last = summary (accelerate css c t.layout [])) := by
  have hlayout : (if t.compact = true then Layout.compact else .spaced) = t.layout := rfl
  rw [runTransform, hconfig]
  dsimp only
  rw [hsource]
  dsimp only
  rw [hlayout]
  split
  · -- a strict run stops at the error in the source, without a further word
    exact ⟨[], (List.append_nil _).symm, .inl ⟨rfl, by simp [NoConfigError]⟩⟩
  · split
    · exact ⟨_, rfl, .inl ⟨rfl, noConfigError_say (by decide) (by decide) _⟩⟩
    · exact ⟨_, rfl, .inr ⟨rfl, rfl⟩⟩

/-- With settings `inspect` stops neither at them nor at their size. It ends at the source, with one
of two errors, or with the listing. -/
theorem runInspect_settled {c : Config} (h : loadConfig inputs.config i.config limits = .ok c) :
    (∀ x, ¬(runInspect tree inputs i limits).IsExceeded x) ∧
      ¬(runInspect tree inputs i limits).IsConfigError := by
  cases hsource : readText inputs.source with
  | error fault =>
      rw [runInspect_of_fault tree limits h hsource]
      exact ⟨by rintro x ⟨⟨⟩, -⟩, by rintro ⟨⟨⟩, -⟩⟩
  | ok css =>
      cases hsheet : Stylesheet.ofSource css with
      | error e =>
          rw [runInspect_of_sourceError tree limits h hsource hsheet]
          refine ⟨by rintro x ⟨⟨⟩, -⟩, not_isConfigError fun _ => ?_⟩
          exact noConfigError_say (by decide) (by decide) _
      | ok sheet =>
          rw [runInspect_of_ok tree limits h hsource hsheet]
          exact ⟨by rintro x ⟨⟨⟩, -⟩, by rintro ⟨⟨⟩, -⟩⟩

/-- With settings `transform` stops neither at them nor at their size, whatever else it fails at. A
failed run has told something, and its words do not start as those about settings do. -/
theorem runTransform_settled {c : Config}
    (h : loadConfig inputs.config t.config limits = .ok c) :
    (∀ x, ¬(runTransform tree inputs t limits).IsExceeded x) ∧
      ¬(runTransform tree inputs t limits).IsConfigError := by
  cases hsource : readText inputs.source with
  | error fault =>
      have hrun : (runTransform tree inputs t limits).ending = .unreadable fault := by
        simp only [runTransform, h, hsource]
      constructor
      · intro x hx
        cases hrun.symm.trans hx.1
      · intro he
        cases hrun.symm.trans he.1
  | ok css =>
      -- the words about the report come first, and they are not those about settings
      obtain ⟨last, hstderr, hend⟩ := runTransform_stderr tree limits h hsource
      constructor
      · intro x hx
        rcases hend with ⟨hfailure, -⟩ | ⟨hsuccess, -⟩
        · cases hfailure.symm.trans hx.1
        · cases hsuccess.symm.trans hx.1
      · refine not_isConfigError fun hending => ?_
        rcases hend with ⟨-, hlast⟩ | ⟨hsuccess, -⟩
        · rw [hstderr]
          exact (noConfigError_told c _ _).append hlast
        · cases hsuccess.symm.trans hending

end Inputs

/-! ### Settings that are too much -/

/-- Settings are too much for their reader just if there is a file of settings, it is text, and the
JSON reader gives it up. The arguments play no part, since they are read only behind the file. -/
theorem loadConfig_eq_excess_iff {file : Option (Text × Bytes)} {r : ConfigRequest}
    {limits : Json.Limits} {x : Json.Excess} :
    loadConfig file r limits = .error (.excess x) ↔
      ∃ path content source, file = some (path, content) ∧ Utf8.decode content = .ok source ∧
        Json.read (Text.normalizeNewlines source) limits = .error (.excess x) := by
  rw [loadConfig_eq]
  constructor
  · intro h
    cases file with
    | none => cases h
    | some f =>
        obtain ⟨path, content⟩ := f
        rw [baseConfig, Config.load] at h
        split at h
        · cases h
        · rename_i source hdecode
          refine ⟨path, content, source, rfl, hdecode, ?_⟩
          split at h
          · cases h
          · rename_i y hread
            obtain rfl : y = x := by simpa [Except.map] using h
            exact hread
          · -- settings that do not fit are reported
            rename_i members hread
            cases hoptions : Config.ofOptions members <;> rw [hoptions] at h <;> cases h
          · cases h
  · rintro ⟨path, content, source, rfl, hdecode, hread⟩
    simp only [baseConfig, Config.load, hdecode, hread, Except.map]

/-! ### The two commands on the same inputs -/

/-- What a run of `inspect` has shown about a source that `transform` has reported on. -/
structure Outcome.Confirms (shown done : Outcome) (c : Config) (css : Text) (report : Report) :
    Prop where
  /-- `inspect` finds an error in the source just if `transform` passes the source on. -/
  failed : (∃ e, shown.IsParseError e) ↔ report.failure.isSome = true
  /-- It is the same error, and `transform` tells it in the same words. -/
  failure : ∀ e, report.failure = some e → shown.IsParseError e ∧ shown.stderr <:+: done.stderr
  /-- If there is none, the rules are listed with the numbers of the report. -/
  listing : report.failure = none → ∃ sheet lines, Stylesheet.ofSource css = .ok sheet ∧
    shown.ending = .success ∧ shown.stderr = [] ∧
    Listing c sheet report.eligible report.total lines shown.stdout
  /-- A `transform` that could write its output ends with these numbers. -/
  summary : report.failure = none → done.ending = .success →
    ("Accelerated " ++ Text.ofNat report.changed ++ " of " ++ Text.ofNat report.total ++
      " rule block(s) (" ++ Text.ofNat report.eligible ++ " matched)" ++ ['\n'] : Text) <:+
      done.stderr

/-- What the runs of the two commands on the same inputs have in common. -/
structure RunsAgree (t : TransformRequest) (tree : FileTree) (stdin : Bytes) (limits : Json.Limits)
    (shown done : Outcome) : Prop where
  /-- Both give up at the file of settings, for the same reason, or neither does. -/
  exceeded : ∀ x, shown.IsExceeded x ↔ done.IsExceeded x
  /-- They do so just if the reader of the file gives up. -/
  exceeded_iff : ∀ x, shown.IsExceeded x ↔ ∃ inputs path content source,
    openInputs tree stdin t.source t.config = .ok inputs ∧ inputs.config = some (path, content) ∧
      Utf8.decode content = .ok source ∧
      Json.read (Text.normalizeNewlines source) limits = .error (.excess x)
  /-- A well-formed file with a value beyond the limits anywhere in it is such a file. -/
  exceeds : ∀ inputs path content source v,
    openInputs tree stdin t.source t.config = .ok inputs → inputs.config = some (path, content) →
      Utf8.decode content = .ok source →
      Json.read (Text.normalizeNewlines source) .unlimited = .ok v → ¬v.Within limits 0 →
      ∃ x, shown.IsExceeded x
  /-- Both stop at faulty settings or neither does. -/
  configError : shown.IsConfigError ↔ done.IsConfigError
  /-- The error in the settings is the same. -/
  configMessage : shown.IsConfigError → shown.stderr = done.stderr
  /-- Otherwise there are settings, and about a source that is text `inspect` shows what
  `transform` reports. -/
  confirms : (∀ x, ¬shown.IsExceeded x) → ¬shown.IsConfigError → ∀ inputs source,
    openInputs tree stdin t.source t.config = .ok inputs →
    Utf8.decode inputs.source = .ok source →
    ∃ c, loadConfig inputs.config t.config limits = .ok c ∧
      shown.Confirms done c (Text.normalizeNewlines source)
        (accelerate (Text.normalizeNewlines source) c t.layout [])

/-- With settings and a source that is text, `inspect` shows what `transform` reports. Both read the
source in the same way, so they find the same error or the same tree. -/
theorem confirms_runInspect {tree : FileTree} {inputs : Inputs} {i : InspectRequest}
    {t : TransformRequest} {limits : Json.Limits} {c c' : Config} {css : Text}
    (hi : loadConfig inputs.config i.config limits = .ok c)
    (ht : loadConfig inputs.config t.config limits = .ok c') (hexclude : c.exclude = c'.exclude)
    (htarget : c.target = c'.target) (hsource : readText inputs.source = .ok css) :
    (runInspect tree inputs i limits).Confirms (runTransform tree inputs t limits) c' css
      (accelerate css c' t.layout []) := by
  obtain ⟨last, hstderr, hend⟩ := runTransform_stderr tree limits ht hsource
  cases hsheet : Stylesheet.ofSource css with
  | error e =>
      obtain ⟨notices, hreport⟩ := accelerate_of_error hsheet c' t.layout []
      have hshown : (runInspect tree inputs i limits).IsParseError e := by
        rw [runInspect_of_sourceError tree limits hi hsource hsheet]
        exact ⟨rfl, rfl, Text.strips_stripSequences _⟩
      rw [hreport] at hstderr ⊢
      refine ⟨⟨fun _ => rfl, fun _ => ⟨e, hshown⟩⟩, ?_, by simp, by simp⟩
      rintro e' he
      obtain rfl : e = e' := by simpa using he
      refine ⟨hshown, ?_⟩
      -- the message stands behind the notices of the report
      rw [runInspect_of_sourceError tree limits hi hsource hsheet, hstderr, told]
      exact ⟨_, last, rfl⟩
  | ok sheet =>
      obtain ⟨hnone, -⟩ := accelerate_of_ok hsheet c' t.layout []
      obtain ⟨htotal, heligible, -⟩ := accelerate_counts_of_ok hsheet c' t.layout []
      rw [runInspect_of_ok tree limits hi hsource hsheet, listing_congr hexclude htarget]
      refine ⟨⟨?_, ?_⟩, by simp [hnone],
        fun _ => ⟨sheet, shownRules c' sheet, hsheet, rfl, rfl, ?_⟩, fun _ hsuccess => ?_⟩
      · rintro ⟨e, ⟨⟩, -⟩
      · simp [hnone]
      · rw [htotal, heligible]
        exact listing_listing c' sheet
      · rcases hend with ⟨hfailure, -⟩ | ⟨-, hlast⟩
        · cases hsuccess.symm.trans hfailure
        · rw [hstderr, hlast, summary_of_none hnone]
          exact List.suffix_append _ _

/-- The agreement of the two commands, once their inputs are open. Settings are read in the same way
by both, so there are two cases: the same error, or two settings with the same lists. -/
theorem runsAgree_of_inputs {i : InspectRequest} {t : TransformRequest} (hsame : SameInputs i t)
    {tree : FileTree} {stdin : Bytes} {inputs : Inputs}
    (hinputs : openInputs tree stdin t.source t.config = .ok inputs) (limits : Json.Limits) :
    RunsAgree t tree stdin limits (runInspect tree inputs i limits)
      (runTransform tree inputs t limits) := by
  have hagrees := loadConfig_agrees hsame.exclude hsame.target inputs.config limits
  have hexceeded : ∀ x, (runInspect tree inputs i limits).IsExceeded x ↔
      loadConfig inputs.config t.config limits = .error (.excess x) := by
    intro x
    rcases hagrees with ⟨e, hie, hte⟩ | ⟨c, c', hic, htc, -, -⟩
    · rw [runInspect_of_error tree limits hie, Outcome.isExceeded_ofConfigError_iff, hte,
        Except.error.injEq]
    · rw [htc]
      exact iff_of_false ((runInspect_settled tree limits hic).1 x) (by simp)
  -- the inputs are those that the files give
  have hfile : ∀ x, loadConfig inputs.config t.config limits = .error (.excess x) ↔
      ∃ inputs path content source, openInputs tree stdin t.source t.config = .ok inputs ∧
        inputs.config = some (path, content) ∧ Utf8.decode content = .ok source ∧
        Json.read (Text.normalizeNewlines source) limits = .error (.excess x) := by
    intro x
    simp only [hinputs, Except.ok.injEq, loadConfig_eq_excess_iff]
    constructor
    · rintro ⟨path, content, source, h⟩
      exact ⟨inputs, path, content, source, rfl, h⟩
    · rintro ⟨_, path, content, source, rfl, h⟩
      exact ⟨path, content, source, h⟩
  refine ⟨?_, fun x => (hexceeded x).trans (hfile x), ?_, ?_, ?_, ?_⟩
  · intro x
    rcases hagrees with ⟨e, hie, hte⟩ | ⟨c, c', hic, htc, -, -⟩
    · rw [runInspect_of_error tree limits hie, runTransform_of_error tree limits hte]
    · exact iff_of_false ((runInspect_settled tree limits hic).1 x)
        ((runTransform_settled tree limits htc).1 x)
  · intro inputs' path content source v hopen hconfig hdecode hread hv
    obtain ⟨x, hx⟩ := Json.exists_excess_of_not_within hread hv
    exact ⟨x, (hexceeded x).2 ((hfile x).2 ⟨_, path, content, source, hopen, hconfig, hdecode, hx⟩)⟩
  · rcases hagrees with ⟨e, hie, hte⟩ | ⟨c, c', hic, htc, -, -⟩
    · rw [runInspect_of_error tree limits hie, runTransform_of_error tree limits hte]
    · exact iff_of_false (runInspect_settled tree limits hic).2
        (runTransform_settled tree limits htc).2
  · intro hshown
    rcases hagrees with ⟨e, hie, hte⟩ | ⟨c, c', hic, htc, -, -⟩
    · rw [runInspect_of_error tree limits hie, runTransform_of_error tree limits hte]
    · exact absurd hshown (runInspect_settled tree limits hic).2
  · intro hno hfault inputs' source hopen hdecode
    obtain rfl : inputs = inputs' := Except.ok.inj (hinputs.symm.trans hopen)
    rcases hagrees with ⟨e, hie, hte⟩ | ⟨c, c', hic, htc, hexclude, htarget⟩
    · -- without settings the run is one of the two that were ruled out
      rw [runInspect_of_error tree limits hie] at hno hfault
      refine absurd (Outcome.isConfigError_ofConfigError tree fun x hx => ?_) hfault
      exact hno x ((Outcome.isExceeded_ofConfigError_iff tree).2 hx)
    · exact ⟨c', htc, confirms_runInspect hic htc hexclude htarget
        (readText_eq_ok_iff.2 ⟨source, hdecode, rfl⟩)⟩

/-- **The two commands agree.** On the same source and the same settings, whatever switches for
single hints `transform` has, both commands give up at the settings, both report an error in them,
or neither does. Otherwise both find the same error in the source, or `inspect` lists every rule
once and counts as many rules, and as many eligible ones, as `transform` does. -/
theorem run_agrees (args args' : List Text) {i : InspectRequest} {t : TransformRequest}
    (hi : Request.ofArguments args = .ok (.inspect i))
    (ht : Request.ofArguments args' = .ok (.transform t)) (hsame : SameInputs i t)
    (tree : FileTree) (stdin : Bytes) (limits : Json.Limits) :
    RunsAgree t tree stdin limits (run args tree stdin limits) (run args' tree stdin limits) := by
  rw [run_of_ofArguments hi, run_of_ofArguments ht, serve, serve, hsame.openInputs tree stdin]
  cases hinputs : openInputs tree stdin t.source t.config with
  | ok inputs => exact runsAgree_of_inputs hsame hinputs limits
  | error e =>
      -- without inputs both runs end at the arguments
      have hno : ∀ o : Outcome, o.ending = .usage e → ∀ x, ¬o.IsExceeded x := by
        intro o ho x hx
        cases ho.symm.trans hx.1
      refine ⟨fun x => Iff.rfl, fun x => iff_of_false (hno _ rfl x) ?_, ?_, Iff.rfl,
        fun _ => rfl, ?_⟩
      all_goals simp [hinputs]

/-- Three rules inside two at-rules, and settings with an integer of three digits. -/
def nestedFiles : FileTree where
  files := [(["a"], Utf8.encode
      "@media m\x7b@supports s\x7ba\x7banimation:x\x7d.e\x7banimation:x\x7db\x7bc:d\x7d\x7d\x7d"),
    (["k"], Utf8.encode "\x7b\x22x\x22:100\x7d")]

/-- Room for integers of two digits. -/
def twoDigits : Json.Limits := { Json.Limits.unlimited with digits := some 2 }

/-- One rule of each status, for an `inspect` and for a `transform` that switches a hint off. With a
reader that takes two digits only, the settings end both runs without a word. -/
theorem run_agrees_nested :
    (run ["inspect", "a", "--exclude", ".e"] nestedFiles []).stdout =
        ("match    @media m > @supports s > a\n" ++
          "excluded @media m > @supports s > .e\n" ++
          "skip     @media m > @supports s > b\n" ++
          "\nSummary: 1 match, 1 excluded, 1 skip\n").toList ∧
      (∃ t : TransformRequest, t.config.flag .transform = some false ∧
        RunsAgree t nestedFiles [] .standard
          (run ["inspect", "a", "--exclude", ".e"] nestedFiles [])
          (run ["transform", "--no-transform", "a", "--exclude=.e"] nestedFiles [])) ∧
      (run ["inspect", "a", "--config", "k"] nestedFiles [] twoDigits).IsExceeded (.digits 2 3) ∧
      ∃ t : TransformRequest, RunsAgree t nestedFiles [] twoDigits
        (run ["inspect", "a", "--config", "k"] nestedFiles [] twoDigits)
        (run ["transform", "a", "--config", "k"] nestedFiles [] twoDigits) := by
  have hlisted := run_agrees ["inspect", "a", "--exclude", ".e"]
    ["transform", "--no-transform", "a", "--exclude=.e"] rfl rfl ⟨rfl, rfl, rfl, rfl⟩
    nestedFiles [] .standard
  -- a number of three digits is too long for this reader, so both runs give up without a word
  have hended := run_agrees ["inspect", "a", "--config", "k"] ["transform", "a", "--config", "k"]
    rfl rfl ⟨rfl, rfl, rfl, rfl⟩ nestedFiles [] twoDigits
  exact ⟨by decide +kernel, ⟨_, rfl, hlisted⟩, ⟨by decide +kernel, by decide +kernel,
    by decide +kernel⟩, _, hended⟩

end CssHints.Command
