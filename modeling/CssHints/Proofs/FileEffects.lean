import CssHints.Command.Run

/-!
# `CssHints.Proofs.FileEffects`: what a run of the program does to files

A run writes at most once, and behind everything that can fail. So there are two kinds of runs:
those that leave all files as they were, and those that end well and have written the whole output
to the file that was asked for. `run_files` says which run is of which kind.

The second kind needs a law of file trees: a file that was written is found again at the same path
with the new content, and nothing else has changed (`FileTree.replaces_of_write`). The path is
looked up name by name, so the law is an induction on the names. A directory on the way is never
the place of the new file, and it stays a directory when the file is put there.
-/

set_option autoImplicit false

namespace CssHints

namespace FileTree

/-- The path names a place for a file. There, the tree `after` has a file with the given content,
and everywhere else it is as before. -/
def Replaces (tree : FileTree) (path : Text) (content : Bytes) (after : FileTree) : Prop :=
  ∃ names, ((∃ old, tree.lookup path = .file names old) ∨ tree.lookup path = .absent names) ∧
    after.lookup path = .file names content ∧
    (∀ other, other ≠ names → after.content? other = tree.content? other) ∧
    after.directories = tree.directories ∧ after.working = tree.working

/-! ### A file is put into a tree -/

/-- The files after one was put there: at its names the new content is found, and at all other names
what was found before. The induction is on the listed files, since the new one takes the place of
the first of the same names or else goes to the end. -/
theorem find?_putFile (names : List Text) (content : Bytes) (other : List Text)
    (files : List (List Text × Bytes)) :
    ((putFile names content files).find? fun f => f.1 = other).map Prod.snd =
      if other = names then some content
      else (files.find? fun f => f.1 = other).map Prod.snd := by
  induction files with
  | nil =>
      by_cases h : other = names
      · simp [putFile, h]
      · simp [putFile, h, Ne.symm h]
  | cons f files ih =>
      -- the listed file is replaced if it has the names, and kept otherwise
      by_cases hf : f.1 = names
      · rw [putFile, if_pos hf]
        by_cases h : other = names
        · simp [h]
        · simp [h, hf, Ne.symm h]
      · rw [putFile, if_neg hf]
        by_cases h : f.1 = other
        · have hne : other ≠ names := h ▸ hf
          simp [h, hne]
        · simpa [h] using ih

/-- A tree with a file put into it holds the new content at the names of the file, and is as before
elsewhere. -/
theorem content?_put (tree : FileTree) (names : List Text) (content : Bytes) (other : List Text) :
    (tree.put names content).content? other =
      if other = names then some content else tree.content? other :=
  find?_putFile names content other tree.files

/-- No names of files are lost when a file is put there: the file with that name gets a new content,
and all others stay. -/
theorem mem_putFile {names : List Text} {content : Bytes} {files : List (List Text × Bytes)}
    {f : List Text × Bytes} (hf : f ∈ files) :
    ∃ g ∈ putFile names content files, g.1 = f.1 := by
  induction files with
  | nil => cases hf
  | cons e files ih =>
      by_cases he : e.1 = names
      · rw [putFile, if_pos he]
        rcases List.mem_cons.1 hf with rfl | hf
        · exact ⟨_, List.mem_cons_self, he.symm⟩
        · exact ⟨f, List.mem_cons_of_mem _ hf, rfl⟩
      · rw [putFile, if_neg he]
        rcases List.mem_cons.1 hf with rfl | hf
        · exact ⟨f, List.mem_cons_self, rfl⟩
        · obtain ⟨g, hg, hname⟩ := ih hf
          exact ⟨g, List.mem_cons_of_mem _ hg, hname⟩

/-- A directory stays one: it is listed, or a file lies below it, and that file is still there. -/
theorem isDirectory_put {tree : FileTree} {names : List Text} (content : Bytes) {place : List Text}
    (h : tree.isDirectory place = true) : (tree.put names content).isDirectory place = true := by
  rw [isDirectory, Bool.or_eq_true] at h ⊢
  rcases h with hlisted | hfile
  · exact .inl hlisted
  · obtain ⟨f, hf, hbelow⟩ := List.any_eq_true.1 hfile
    obtain ⟨g, hg, hname⟩ : ∃ g ∈ putFile names content tree.files, g.1 = f.1 := mem_putFile hf
    refine .inr (List.any_eq_true.2 ⟨g, hg, ?_⟩)
    rw [hname]
    exact hbelow

/-! ### Looking the file up again -/

/-- A path leads to a place for a file: to a file there, or to nothing yet. -/
def Lookup.IsAt (found : Lookup) (place : List Text) : Prop :=
  (∃ old, found = .file place old) ∨ found = .absent place

/-- A path that stops on the way leads to no place for a file. -/
theorem not_isAt_stopBefore {names place : List Text} {e : OpenError} :
    ¬(stopBefore names e).IsAt place := by
  unfold stopBefore Lookup.IsAt
  split <;> simp

/-- A place for a file is that of a file or of nothing, and not that of a directory. The cases are
those of looking names up, and only the two that end the path can give a place. -/
theorem isDirectory_of_isAt {tree : FileTree} {here names place : List Text}
    (h : (lookupFrom tree here names).IsAt place) (hnone : tree.content? place = none) :
    tree.isDirectory place = false := by
  fun_induction lookupFrom tree here names with
  | case1 => simp [Lookup.IsAt] at h
  | case2 here name names hstay ih => exact ih h
  | case3 here names hstay ih => exact ih h
  | case4 here name hstay hup there content hcontent =>
      obtain rfl : there = place := by simpa [Lookup.IsAt] using h
      rw [hcontent] at hnone
      cases hnone
  | case5 => exact absurd h not_isAt_stopBefore
  | case6 here name names hstay hup there hcontent hdir ih => exact ih h
  | case7 => exact absurd h not_isAt_stopBefore
  -- the last name is that of no file, and the lookup has seen that it is that of no directory
  | case8 here name hstay hup there hcontent hdir hlimit =>
      obtain rfl : there = place := by simpa [Lookup.IsAt] using h
      simpa using hdir
  | case9 => exact absurd h not_isAt_stopBefore

/-- The file is found again where it was put. The induction is on the names of the path: what they
lead through are directories, which stay. -/
theorem lookupFrom_put {tree : FileTree} {here names place : List Text}
    (h : (lookupFrom tree here names).IsAt place) (content : Bytes) :
    lookupFrom (tree.put place content) here names = .file place content := by
  have hplace := isDirectory_of_isAt h
  fun_induction lookupFrom tree here names with
  | case1 => simp [Lookup.IsAt] at h
  | case2 here name names hstay ih =>
      rw [lookupFrom, if_pos hstay]
      exact ih h
  | case3 here names hstay ih =>
      rw [lookupFrom, if_neg hstay, if_pos rfl]
      exact ih h
  | case4 here name hstay hup there old hold =>
      obtain rfl : there = place := by simpa [Lookup.IsAt] using h
      rw [lookupFrom, if_neg hstay, if_neg hup]
      simp [there, content?_put]
  | case5 => exact absurd h not_isAt_stopBefore
  | case6 here name names hstay hup there hcontent hdir ih =>
      -- a directory on the way is not the place of the file
      have hne : there ≠ place := by
        rintro rfl
        rw [hplace hcontent] at hdir
        cases hdir
      have hnone : (tree.put place content).content? (here ++ [name]) = none := by
        rw [content?_put, if_neg hne]
        exact hcontent
      rw [lookupFrom, if_neg hstay, if_neg hup]
      dsimp only
      rw [hnone]
      dsimp only
      rw [if_pos (isDirectory_put content hdir)]
      exact ih h
  | case7 => exact absurd h not_isAt_stopBefore
  | case8 here name hstay hup there hcontent hdir hlimit =>
      obtain rfl : there = place := by simpa [Lookup.IsAt] using h
      rw [lookupFrom, if_neg hstay, if_neg hup]
      simp [there, content?_put]
  | case9 => exact absurd h not_isAt_stopBefore

/-- The path that led to a place for a file leads to the file once it was put there. The directories
on the way are still directories. -/
theorem lookup_put {tree : FileTree} {path : Text} {place : List Text}
    (h : (tree.lookup path).IsAt place) (content : Bytes) :
    (tree.put place content).lookup path = .file place content := by
  cases path with
  | nil => simp [lookup, Lookup.IsAt] at h
  | cons c path =>
      unfold lookup at h ⊢
      dsimp only at h ⊢
      split at h
      · simp [Lookup.IsAt] at h
      · rename_i hlimit
        rw [if_neg hlimit]
        exact lookupFrom_put h content

/-- **A file that is written.** It holds the content, and nothing else has changed: no other file,
no directory and not the working directory. -/
theorem replaces_of_write {tree after : FileTree} {path : Text} {content : Bytes}
    (h : tree.write path content = .ok after) : tree.Replaces path content after := by
  -- only a path that leads to a file or to a free place can be written
  have hput : ∃ place, (tree.lookup path).IsAt place ∧ after = tree.put place content := by
    unfold write at h
    split at h
    · rename_i place old hfound
      cases h
      exact ⟨place, .inl ⟨old, hfound⟩, rfl⟩
    · rename_i place hfound
      cases h
      exact ⟨place, .inr hfound, rfl⟩
    all_goals cases h
  obtain ⟨place, hplace, rfl⟩ := hput
  refine ⟨place, hplace, lookup_put hplace content, ?_, rfl, rfl⟩
  intro other hother
  rw [content?_put, if_neg hother]

end FileTree

namespace Command

/-! ### Runs -/

/-- The exit code is zero just if the run ends well. -/
theorem Ending.exitCode_eq_zero_iff (e : Ending) : e.exitCode = 0 ↔ e = .success := by
  cases e <;> simp [Ending.exitCode]

/-- The layout that a request asks for. -/
def TransformRequest.layout (r : TransformRequest) : Layout :=
  if r.compact then .compact else .spaced

/-- What a `transform` that ends well has done. The source and the settings were read from the tree
before the run; the text of the source is what its bytes encode, with the lines ended by line feeds.
With a hyphen as the output path no file has changed. With any other path the file that the path
names holds the output for that source and those settings, and all else is as it was. A strict run
has found no error in the source. -/
def TransformRequest.Done (r : TransformRequest) (tree : FileTree) (stdin : Bytes)
    (after : FileTree) (limits : Json.Limits := .standard) : Prop :=
  ∃ inputs config source,
    openInputs tree stdin r.source r.config = .ok inputs ∧
      loadConfig inputs.config r.config limits = .ok config ∧
      Utf8.decode inputs.source = .ok source ∧
      let report := accelerate (Text.normalizeNewlines source) config r.layout []
      (r.strict = true → report.failure = none) ∧
        (r.output = ['-'] → after = tree) ∧
        (r.output ≠ ['-'] → tree.Replaces r.output (Utf8.encode report.output) after)

/-- Bytes that can be read as text are decoded, and then the ends of their lines are changed. -/
theorem readText_eq_ok_iff {bytes : Bytes} {css : Text} :
    readText bytes = .ok css ↔
      ∃ source, Utf8.decode bytes = .ok source ∧ Text.normalizeNewlines source = css := by
  unfold readText
  cases Utf8.decode bytes with
  | error fault => simp [Except.map]
  | ok source => simp [Except.map]

/-- A run that cannot load its settings does not end well. -/
theorem Outcome.ending_ofConfigError (tree : FileTree) (e : ConfigError) :
    (Outcome.ofConfigError tree e).ending ≠ .success := by
  cases e <;> simp [Outcome.ofConfigError]

/-- A run that cannot load its settings changes no file. -/
theorem Outcome.files_ofConfigError (tree : FileTree) (e : ConfigError) :
    (Outcome.ofConfigError tree e).files = tree := by
  cases e <;> rfl

/-- Output that was written is in the file that was named, or, with a hyphen, in none. In the second
case it has gone to the standard output. -/
theorem replaces_of_writeOutput {tree : FileTree} {path s : Text} {written : Written}
    (h : writeOutput tree path s = .ok written) :
    (path = ['-'] → written.files = tree) ∧
      (path ≠ ['-'] → tree.Replaces path (Utf8.encode s) written.files) := by
  unfold writeOutput at h
  split at h
  · rename_i hpath
    cases h
    exact ⟨fun _ => rfl, fun hne => absurd hpath hne⟩
  · rename_i hpath
    refine ⟨fun he => absurd he hpath, fun _ => ?_⟩
    cases hwrite : tree.write path (Utf8.encode s) with
    | error e =>
        rw [hwrite] at h
        cases h
    | ok after =>
        rw [hwrite] at h
        cases h
        exact FileTree.replaces_of_write hwrite

/-- With its inputs open, a `transform` leaves the files as they were, or it ends well and has
written. There is no third kind, because all that can fail stands before the writing. -/
theorem runTransform_cases {tree : FileTree} {stdin : Bytes} {inputs : Inputs}
    {r : TransformRequest} (hinputs : openInputs tree stdin r.source r.config = .ok inputs)
    (limits : Json.Limits) :
    (runTransform tree inputs r limits).ending ≠ .success ∧
        (runTransform tree inputs r limits).files = tree ∨
      (runTransform tree inputs r limits).ending = .success ∧
        r.Done tree stdin (runTransform tree inputs r limits).files limits := by
  have hlayout : (if r.compact = true then Layout.compact else .spaced) = r.layout := rfl
  unfold runTransform
  rw [hlayout]
  -- each failure on the way returns the tree that was given
  cases hconfig : loadConfig inputs.config r.config limits with
  | error e => exact .inl ⟨Outcome.ending_ofConfigError tree e, Outcome.files_ofConfigError tree e⟩
  | ok config =>
      cases hsource : readText inputs.source with
      | error fault => exact .inl ⟨by simp, rfl⟩
      | ok css =>
          obtain ⟨source, hdecode, rfl⟩ := readText_eq_ok_iff.1 hsource
          dsimp only
          split
          · exact .inl ⟨by simp, rfl⟩
          · rename_i hstrict
            split
            · exact .inl ⟨by simp, rfl⟩
            · -- the only writing comes last
              rename_i written hwritten
              refine .inr ⟨rfl, inputs, config, source, hinputs, hconfig, hdecode, ?_,
                replaces_of_writeOutput hwritten⟩
              intro hr
              simpa [hr] using hstrict

/-- An `inspect` changes no file, however it ends. -/
theorem runInspect_files (tree : FileTree) (inputs : Inputs) (r : InspectRequest)
    (limits : Json.Limits) : (runInspect tree inputs r limits).files = tree := by
  unfold runInspect
  split
  · exact Outcome.files_ofConfigError tree _
  · split
    · rfl
    · split <;> rfl

/-- A request for `inspect` is no request for `transform`, whatever arguments it has. -/
theorem inspectRequest_ne_transform (args : List Text) (r : TransformRequest) :
    inspectRequest args ≠ .ok (.transform r) := by
  unfold inspectRequest
  cases parseArguments commonSwitches true args with
  | error e => simp [bind, Except.bind]
  | ok parsed =>
      cases hsource : theSource parsed.others <;>
        by_cases hhelp : Setting.help ∈ parsed.settings <;>
        simp [bind, Except.bind, pure, Except.pure, hsource, hhelp]

/-- The settings of the program itself ask for its version or for help, and never for
`transform`. -/
theorem programRequest?_ne_transform (settings : List ProgramSetting) (r : TransformRequest) :
    programRequest? settings ≠ some (.transform r) := by
  unfold programRequest?
  split <;> simp

/-- Whatever else the arguments hold, the word `inspect` as the command asks for no `transform`. The
other results are `version` and `help`, an error, or an `inspect`. -/
theorem ofArguments_ne_transform {args rest : List Text} {program : Parsed ProgramSetting}
    (h : parseArguments programSwitches false args = .ok program)
    (hcommand : program.others = "inspect".toList :: rest) (r : TransformRequest) :
    Request.ofArguments args ≠ .ok (.transform r) := by
  simp only [Request.ofArguments, h, bind, Except.bind, hcommand]
  cases hrequest : programRequest? program.settings with
  | some request =>
      rintro ⟨⟩
      exact programRequest?_ne_transform _ r hrequest
  | none => exact inspectRequest_ne_transform rest r

/-- A run with arguments that make up a request serves the request; an input that cannot be opened
is an error of usage. -/
theorem run_of_ofArguments {args : List Text} {request : Request}
    (h : Request.ofArguments args = .ok request) (tree : FileTree) (stdin : Bytes)
    (limits : Json.Limits) :
    run args tree stdin limits = match serve request tree stdin limits with
      | .ok outcome => outcome
      | .error e =>
        { ending := .usage e, stderr := say ("Error: " ++ e.message), files := tree } := by
  rw [run, h]
  rfl

/-- A run for a request that is not `transform` changes no file, and neither does one whose
arguments make up no request. -/
theorem run_files_of_ne_transform {args : List Text}
    (h : ∀ r, Request.ofArguments args ≠ .ok (.transform r)) (tree : FileTree) (stdin : Bytes)
    (limits : Json.Limits) : (run args tree stdin limits).files = tree := by
  cases hrequest : Request.ofArguments args with
  | error e =>
      rw [run, hrequest]
      rfl
  | ok request =>
      rw [run_of_ofArguments hrequest]
      cases request with
      | version => rfl
      | help => rfl
      | transform r => exact absurd hrequest (h r)
      | inspect r =>
          rw [serve]
          cases openInputs tree stdin r.source r.config with
          | error e => rfl
          | ok inputs => exact runInspect_files tree inputs r limits

/-- A run for a request for `transform` fails and leaves the files as they were, or it ends well and
has done what was asked. -/
theorem run_transform_cases {args : List Text} {r : TransformRequest}
    (h : Request.ofArguments args = .ok (.transform r)) (tree : FileTree) (stdin : Bytes)
    (limits : Json.Limits) :
    (run args tree stdin limits).ending ≠ .success ∧ (run args tree stdin limits).files = tree ∨
      (run args tree stdin limits).ending = .success ∧
        r.Done tree stdin (run args tree stdin limits).files limits := by
  rw [run_of_ofArguments h, serve]
  cases hinputs : openInputs tree stdin r.source r.config with
  | error e => exact .inl ⟨by simp [Except.map], rfl⟩
  | ok inputs => exact runTransform_cases hinputs limits

/-- **What a run does to files.** A run that does not end well changes none. Nor does a run of
`inspect`, nor any other run that is no `transform`. A `transform` that ends well has done what was
asked: it has written the whole output, made from the source and the settings before the run, to
the file that was named, also if that is the file of the source or of the settings, and it has
changed nothing else. -/
theorem run_files (args : List Text) (tree : FileTree) (stdin : Bytes) (limits : Json.Limits) :
    ((run args tree stdin limits).ending.exitCode ≠ 0 →
        (run args tree stdin limits).files = tree) ∧
      (∀ program rest, parseArguments programSwitches false args = .ok program →
        program.others = "inspect".toList :: rest → (run args tree stdin limits).files = tree) ∧
      ((∀ r, Request.ofArguments args ≠ .ok (.transform r)) →
        (run args tree stdin limits).files = tree) ∧
      ∀ r, Request.ofArguments args = .ok (.transform r) →
        (run args tree stdin limits).ending.exitCode = 0 →
        r.Done tree stdin (run args tree stdin limits).files limits := by
  simp only [ne_eq, Ending.exitCode_eq_zero_iff]
  refine ⟨?_, ?_, ?_, ?_⟩
  · intro hcode
    -- a run that fails is a `transform`, which writes last of all, or one that writes nothing
    by_cases hrequest : ∃ r, Request.ofArguments args = .ok (.transform r)
    · obtain ⟨r, hr⟩ := hrequest
      rcases run_transform_cases hr tree stdin limits with ⟨-, hfiles⟩ | ⟨hsuccess, -⟩
      · exact hfiles
      · exact absurd hsuccess hcode
    · exact run_files_of_ne_transform (fun r hr => hrequest ⟨r, hr⟩) tree stdin limits
  · intro program rest hparse hcommand
    exact run_files_of_ne_transform (ofArguments_ne_transform hparse hcommand) tree stdin limits
  · intro hrequest
    exact run_files_of_ne_transform hrequest tree stdin limits
  · intro r hr hcode
    rcases run_transform_cases hr tree stdin limits with ⟨hfailure, -⟩ | ⟨-, hdone⟩
    · exact absurd hcode hfailure
    · exact hdone

/-- A stylesheet, and settings with two of the hints switched off. -/
def styleFiles : FileTree where
  files := [(["a"], Utf8.encode "b\x7btransition:c\x7d"),
    (["k"], Utf8.encode "\x7b\x22enable_backface\x22:false,\x22enable_perspective\x22:false\x7d")]

/-- The output may go to the file of the source or to that of the settings. It is made from what
the two files held before the run, and the other file stays as it was. -/
theorem run_files_inPlace :
    (∃ r : TransformRequest, r.source = "a" ∧ r.output = "a" ∧
        r.Done styleFiles []
          (run ["transform", "a", "--config", "k", "--compact", "-o", "a"] styleFiles []).files) ∧
      (run ["transform", "a", "--config", "k", "--compact", "-o", "a"] styleFiles []).files =
        styleFiles.put ["a"] (Utf8.encode
          "b\x7btransition:c;transform:translateZ(0);will-change:transform;\x7d") ∧
      (∃ r : TransformRequest, r.config.path = some "k".toList ∧ r.output = "k" ∧
        r.Done styleFiles []
          (run ["transform", "a", "--config", "k", "--compact", "-o", "k"] styleFiles []).files) ∧
      (run ["transform", "a", "--config", "k", "--compact", "-o", "k"] styleFiles []).files =
        styleFiles.put ["k"] (Utf8.encode
          "b\x7btransition:c;transform:translateZ(0);will-change:transform;\x7d") := by
  have hsource := (run_files ["transform", "a", "--config", "k", "--compact", "-o", "a"]
    styleFiles [] .standard).2.2.2 _ rfl (by decide +kernel)
  have hsettings := (run_files ["transform", "a", "--config", "k", "--compact", "-o", "k"]
    styleFiles [] .standard).2.2.2 _ rfl (by decide +kernel)
  exact ⟨⟨_, rfl, rfl, hsource⟩, by decide +kernel, ⟨_, rfl, rfl, hsettings⟩, by decide +kernel⟩

end Command

end CssHints
