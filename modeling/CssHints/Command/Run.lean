import CssHints.Command.Request
import CssHints.Config.Store
import CssHints.FileTree
import CssHints.Report
import CssHints.Text.Terminal

/-!
# `CssHints.Command.Run`: what a run of the program does

`run` gives the outcome of the program on arguments, a tree of files and a standard input: what it
prints, how it ends and the files afterwards. The source is read before anything is
written, and the output is opened only when there is something to write, so a run that fails
before that leaves every file as it was.
-/

set_option autoImplicit false

namespace CssHints.Command

/-- How a run ends. -/
inductive Ending
  | success
  /-- With a message on the standard error. -/
  | failure
  /-- The arguments were not understood. -/
  | usage (e : UsageError)
  /-- The source is no text. -/
  | unreadable (fault : Utf8.Fault)
  /-- The file of settings is too much for its reader. -/
  | exceeded (x : Json.Excess)
  deriving DecidableEq, Repr

/-- The number that the program returns. -/
def Ending.exitCode : Ending → Nat
  | .success => 0
  | .failure => 1
  | .usage _ => 2
  | .unreadable _ => 1
  | .exceeded _ => 1

/-- What a run does. -/
structure Outcome where
  ending : Ending
  stdout : Text := []
  stderr : Text := []
  files : FileTree
  deriving DecidableEq, Repr

/-- A message as it is printed: on a line, without terminal control sequences. -/
def say (message : Text) : Text := Text.stripSequences (message ++ ['\n'])

/-- A notice as it is printed. -/
def sayNotice (n : Notice) : Text :=
  n.level.label ++ " " ++ n.channel ++ ": " ++ n.message ++ "\n"

/-- The notices that are printed: warnings always, others if asked for. -/
def sayNotices (verbose : Bool) (notices : List Notice) : Text :=
  (notices.filter fun n => verbose || n.level = .warning).flatMap sayNotice

/-- The bytes that a source names: a hyphen is the standard input. -/
def openSource (tree : FileTree) (stdin : Bytes) (path : Text) : Option Bytes :=
  if path = ['-'] then some stdin else (tree.read path).toOption

/-- The text that bytes hold, with its lines ended by line feeds. -/
def readText (bytes : Bytes) : Except Utf8.Fault Text :=
  (Utf8.decode bytes).map Text.normalizeNewlines

/-- What a command reads: the bytes of its source, and the path and the bytes of its file of
settings. -/
structure Inputs where
  source : Bytes
  config : Option (Text × Bytes)

/-- The inputs that a command names, if all of them can be opened. -/
def openInputs (tree : FileTree) (stdin : Bytes) (source : Text) (r : ConfigRequest) :
    Except UsageError Inputs :=
  -- the source is looked at first, so it is blamed if neither can be opened
  match openSource tree stdin source, r.path with
  | none, _ => .error (.unreadableSource source)
  | some bytes, none => .ok ⟨bytes, none⟩
  | some bytes, some path =>
    match tree.read path with
    | .ok content => .ok ⟨bytes, some (path, content)⟩
    | .error _ => .error (.missingFile path)

/-- The settings of a run: those of the file, or else the defaults, with what the arguments
replace. -/
def loadConfig (file : Option (Text × Bytes)) (r : ConfigRequest)
    (limits : Json.Limits := .standard) : Except ConfigError Config := do
  let base ← match file with
    | none => .ok {}
    | some (path, content) => Config.load (PlainPath.ofText path).toText content limits
  return {
    transform := (r.flag .transform).getD base.transform
    willChange := (r.flag .willChange).getD base.willChange
    backface := (r.flag .backface).getD base.backface
    perspective := (r.flag .perspective).getD base.perspective
    exclude := (r.exclude.map Config.splitList).getD base.exclude
    target := (r.target.map Config.splitList).getD base.target }

/-- The outcome of a run without settings. A file of settings that is too much for its reader ends
the run without a word of the program; all else is reported. -/
def Outcome.ofConfigError (tree : FileTree) : ConfigError → Outcome
  | .excess x => { ending := .exceeded x, files := tree }
  | e => { ending := .failure, stderr := say ("Config error: " ++ e.message), files := tree }

/-- Where text went: what was printed, and the files. -/
structure Written where
  stdout : Text
  files : FileTree

/-- Writes a text to a file; a hyphen is the standard output. -/
def writeOutput (tree : FileTree) (path : Text) (s : Text) :
    Except FileTree.OpenError Written :=
  if path = ['-'] then .ok ⟨s, tree⟩
  else (tree.write path (Utf8.encode s)).map fun files => ⟨[], files⟩

/-- The warning about settings without any hint. -/
def idleWarning (c : Config) : Text :=
  if c.anyEnabled then []
  else say "Warning: every GPU declaration is disabled; rules are only re-serialized"

/-- The message about a source that is no stylesheet. -/
def failureMessage (r : Report) : Text :=
  match r.failure with
  | none => []
  | some e => say ("Parse error: " ++ e.message)

/-- The message about a finished run. -/
def summary (r : Report) : Text :=
  match r.failure with
  | some _ => []
  | none =>
    say ("Accelerated " ++ Text.ofNat r.changed ++ " of " ++ Text.ofNat r.total ++
      " rule block(s) (" ++ Text.ofNat r.eligible ++ " matched)")

/-- Runs the command `transform` on its inputs. -/
def runTransform (tree : FileTree) (inputs : Inputs) (r : TransformRequest)
    (limits : Json.Limits := .standard) : Outcome :=
  match loadConfig inputs.config r.config limits with
  | .error e => .ofConfigError tree e
  | .ok config =>
    match readText inputs.source with
    -- the warning is given before the source is read
    | .error fault => { ending := .unreadable fault, stderr := idleWarning config, files := tree }
    | .ok css =>
      let report := accelerate css config (if r.compact then .compact else .spaced) []
      let told := idleWarning config ++ sayNotices r.verbose report.notices ++ failureMessage report
      -- a strict run writes nothing; any other one writes the source back
      if r.strict ∧ report.failure.isSome then
        { ending := .failure, stderr := told, files := tree }
      else match writeOutput tree r.output report.output with
        | .error e =>
          let blame := "Error: Could not open file " ++ Text.quoted r.output ++ ": " ++ e.message
          { ending := .failure, stderr := told ++ say blame, files := tree }
        | .ok written =>
          { ending := .success, stdout := written.stdout, stderr := told ++ summary report,
            files := written.files }

/-- What the settings make of a rule. -/
inductive Status
  | eligible
  | excluded
  | skipped
  deriving DecidableEq, Repr

/-- What the settings make of a rule. -/
def statusOf (c : Config) (r : Rule) : Status :=
  if r.isExcluded c then .excluded else if r.hasTarget c then .eligible else .skipped

/-- The written name of a status. -/
def Status.label : Status → Text
  | .eligible => "match"
  | .excluded => "excluded"
  | .skipped => "skip"

/-- The line for a rule: its status, the at-rules around it and its selectors. -/
def ruleLine (c : Config) (parents : List AtHead) (r : Rule) : Text :=
  Text.padRight 9 (statusOf c r).label ++
    (parents.flatMap fun h => h.render ++ " > ".toList) ++ Text.join ", " r.selectors

/-- The number of rules of a status. -/
def countStatus (c : Config) (sheet : Stylesheet) (s : Status) : Text :=
  Text.ofNat (sheet.rules.filter (statusOf c · = s)).length

/-- The listing of the rules of a stylesheet, with the number of rules of each status. -/
def listing (c : Config) (sheet : Stylesheet) : Text :=
  (sheet.walk.flatMap fun entry => say (ruleLine c entry.1 entry.2)) ++ say [] ++
    say ("Summary: " ++ countStatus c sheet .eligible ++ " match, " ++
      countStatus c sheet .excluded ++ " excluded, " ++ countStatus c sheet .skipped ++ " skip")

/-- Runs the command `inspect` on its inputs. -/
def runInspect (tree : FileTree) (inputs : Inputs) (r : InspectRequest)
    (limits : Json.Limits := .standard) : Outcome :=
  match loadConfig inputs.config r.config limits with
  | .error e => .ofConfigError tree e
  | .ok config =>
    match readText inputs.source with
    | .error fault => { ending := .unreadable fault, files := tree }
    | .ok css =>
      match Stylesheet.ofSource css with
      | .error e =>
        { ending := .failure, stderr := say ("Parse error: " ++ e.message), files := tree }
      | .ok sheet => { ending := .success, stdout := listing config sheet, files := tree }

/-- The line that names the program and its version. -/
def versionLine : Text := "gpuaccel, version 1.0.0\n"

/-- What the program says about itself. -/
def helpText : Text :=
  "Usage: gpuaccel [OPTIONS] COMMAND [ARGS]...\n\n" ++
  "  Inject GPU-acceleration hints into CSS stylesheets.\n\n" ++
  "Options:\n" ++
  "  -V, --version  Show the version and exit.\n" ++
  "  -h, --help     Show this message and exit.\n\n" ++
  "Commands:\n" ++
  "  inspect    List every rule block of a CSS file with its match status.\n" ++
  "  transform  Inject GPU-acceleration declarations into a CSS file.\n"

/-- The outcome of a request. -/
def serve (request : Request) (tree : FileTree) (stdin : Bytes)
    (limits : Json.Limits := .standard) : Except UsageError Outcome :=
  match request with
  | .version => .ok { ending := .success, stdout := versionLine, files := tree }
  | .help => .ok { ending := .success, stdout := helpText, files := tree }
  | .transform r =>
    (openInputs tree stdin r.source r.config).map fun inputs => runTransform tree inputs r limits
  | .inspect r =>
    (openInputs tree stdin r.source r.config).map fun inputs => runInspect tree inputs r limits

/-- The outcome of the program, on a machine with the given limits. -/
def run (args : List Text) (tree : FileTree) (stdin : Bytes) (limits : Json.Limits := .standard) :
    Outcome :=
  match (Request.ofArguments args).bind fun request => serve request tree stdin limits with
  | .ok outcome => outcome
  | .error e => { ending := .usage e, stderr := say ("Error: " ++ e.message), files := tree }

end CssHints.Command
