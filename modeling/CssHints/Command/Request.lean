import CssHints.Command.Arguments
import CssHints.Config.Basic

/-!
# `CssHints.Command.Request`: what the arguments ask for

The program has two commands. `transform` writes a source with hints, `inspect` lists the rules of
a source. Of a switch that is given more than once, the last one counts. A request for help or for
the version is granted before anything else is looked at, if the switches around it can be read.

Besides the rules of `CssHints.Command.Arguments`, this much is assumed of the library that reads
the arguments.

* The switches of the program stand before the command, those of a command anywhere behind it,
  before or behind the source. There is exactly one source, and there is no default for it.
* A switch that can be on or off has two names, and it is neither on nor off if none of them is
  given. Then the settings decide.
* Files are opened by the library: the source for reading and the file of settings only to see that
  it is there, both before the command starts, and the output when the first text is written to it.
  A hyphen stands for the standard input or output. `CssHints.Command.Run` says what a run makes of
  them.
* Files are read as UTF-8, with the ends of lines turned into line feeds, and written as UTF-8 with
  nothing changed. Messages lose their terminal control sequences, files do not.
-/

set_option autoImplicit false

namespace CssHints.Command

/-- What a switch of a command sets. -/
inductive Setting
  | help
  | output (path : Text)
  | config (path : Text)
  | exclude (raw : Text)
  | target (raw : Text)
  | flag (f : Flag) (on : Bool)
  | compact
  | strict
  | verbose
  deriving DecidableEq, Repr

/-- What a switch of the program sets. -/
inductive ProgramSetting
  | help
  | version
  deriving DecidableEq, Repr

/-- The switches of the program. -/
def programSwitches : List (Switch ProgramSetting) :=
  [⟨["-V", "--version"], .alone .version⟩, ⟨["-h", "--help"], .alone .help⟩]

/-- The switches of both commands. -/
def commonSwitches : List (Switch Setting) :=
  [⟨["--config"], .withValue .config⟩, ⟨["--exclude"], .withValue .exclude⟩,
   ⟨["--target"], .withValue .target⟩, ⟨["-h", "--help"], .alone .help⟩]

/-- The switches of the command `transform`. -/
def transformSwitches : List (Switch Setting) :=
  commonSwitches ++
  [⟨["-o", "--output"], .withValue .output⟩,
   ⟨["--transform"], .alone (.flag .transform true)⟩,
   ⟨["--no-transform"], .alone (.flag .transform false)⟩,
   ⟨["--will-change"], .alone (.flag .willChange true)⟩,
   ⟨["--no-will-change"], .alone (.flag .willChange false)⟩,
   ⟨["--backface"], .alone (.flag .backface true)⟩,
   ⟨["--no-backface"], .alone (.flag .backface false)⟩,
   ⟨["--perspective"], .alone (.flag .perspective true)⟩,
   ⟨["--no-perspective"], .alone (.flag .perspective false)⟩,
   ⟨["--compact"], .alone .compact⟩, ⟨["--strict"], .alone .strict⟩,
   ⟨["-v", "--verbose"], .alone .verbose⟩]

/-- Where the settings of a run come from. -/
structure ConfigRequest where
  /-- The file of settings. -/
  path : Option Text := none
  exclude : Option Text := none
  target : Option Text := none
  /-- The flags that are switched on or off by name. -/
  flag : Flag → Option Bool := fun _ => none

/-- How the command `transform` is to run. -/
structure TransformRequest where
  source : Text
  output : Text
  config : ConfigRequest
  compact : Bool
  strict : Bool
  verbose : Bool

/-- How the command `inspect` is to run. -/
structure InspectRequest where
  source : Text
  config : ConfigRequest

/-- What the arguments ask for. -/
inductive Request
  | version
  | help
  | transform (r : TransformRequest)
  | inspect (r : InspectRequest)

/-- The last of the settings for which `f` gives a value. -/
def last? {α : Type} (settings : List Setting) (f : Setting → Option α) : Option α :=
  settings.reverse.findSome? f

/-- The path of an output setting. -/
def Setting.output? : Setting → Option Text
  | output path => some path
  | _ => none

/-- The path of a configuration setting. -/
def Setting.config? : Setting → Option Text
  | config path => some path
  | _ => none

/-- The text of an exclusion setting. -/
def Setting.exclude? : Setting → Option Text
  | exclude raw => some raw
  | _ => none

/-- The text of a target setting. -/
def Setting.target? : Setting → Option Text
  | target raw => some raw
  | _ => none

/-- The value that a setting gives to a flag. -/
def Setting.flag? (f : Flag) : Setting → Option Bool
  | flag g on => if g = f then some on else none
  | _ => none

/-- Where the settings say that the configuration comes from. -/
def ConfigRequest.ofSettings (settings : List Setting) : ConfigRequest where
  path := last? settings Setting.config?
  exclude := last? settings Setting.exclude?
  target := last? settings Setting.target?
  flag f := last? settings (Setting.flag? f)

/-- The one source among the other arguments. -/
def theSource : List Text → Except UsageError Text
  | [] => .error .missingArgument
  | [source] => .ok source
  | _ :: extra :: _ => .error (.extraArgument extra)

/-- The request of the command `transform`. -/
def transformRequest (args : List Text) : Except UsageError Request := do
  let parsed ← parseArguments transformSwitches true args
  if .help ∈ parsed.settings then return .help
  let source ← theSource parsed.others
  return .transform {
    source
    output := (last? parsed.settings Setting.output?).getD ['-']
    config := .ofSettings parsed.settings
    compact := .compact ∈ parsed.settings
    strict := .strict ∈ parsed.settings
    verbose := .verbose ∈ parsed.settings }

/-- The request of the command `inspect`. -/
def inspectRequest (args : List Text) : Except UsageError Request := do
  let parsed ← parseArguments commonSwitches true args
  if .help ∈ parsed.settings then return .help
  let source ← theSource parsed.others
  return .inspect { source, config := .ofSettings parsed.settings }

/-- The request of the program's own switches: the first of them counts. -/
def programRequest? : List ProgramSetting → Option Request
  | [] => none
  | .help :: _ => some .help
  | .version :: _ => some .version

/-- What the arguments ask for. A word that is no command is read as a switch of the program, in
case two hyphens stood before it. -/
def Request.ofArguments (args : List Text) : Except UsageError Request := do
  let program ← parseArguments programSwitches false args
  match programRequest? program.settings, program.others with
  | some request, _ => return request
  | none, [] => .error .missingCommand
  | none, command :: rest =>
    if command = "transform".toList then transformRequest rest
    else if command = "inspect".toList then inspectRequest rest
    else
      let again ← parseArguments programSwitches false (command :: rest)
      match programRequest? again.settings with
      | some request => return request
      | none => .error (.unknownCommand command)

end CssHints.Command
