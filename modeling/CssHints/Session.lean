import CssHints.Config.Store
import CssHints.FileTree
import CssHints.Report

/-!
# `CssHints.Session`: a stylesheet under edit

A session holds a stylesheet, settings, a text and files. Each step changes some of
them and gives an answer; a step that fails gives an error and changes nothing. Rules are numbered
from zero in document order. Files are opened by the plain form of their paths.
-/

set_option autoImplicit false

namespace CssHints

/-- What is under edit. -/
structure Session where
  sheet : Stylesheet := []
  config : Config := {}
  text : Text := []
  files : FileTree := {}
  deriving DecidableEq

namespace Session

/-- One step of a session. -/
inductive Step
  /-- Takes the stylesheet from a source. -/
  | parse (source : Text)
  /-- Takes a stylesheet made by hand. -/
  | tree (nodes : List Node)
  /-- Writes the stylesheet and reads it again. -/
  | reparse (layout : Layout)
  /-- Takes new settings that differ from the defaults as given. -/
  | config (changes : Config.Changes)
  /-- Takes settings from a mapping. -/
  | options (o : Config.Options)
  /-- Changes some of the settings. -/
  | replace (changes : Config.Changes)
  /-- Writes the settings to a file. -/
  | save (path : Text)
  /-- Writes a file, and makes the directories on the way to it. -/
  | write (path : Text) (content : Bytes)
  /-- Takes the settings from a file. -/
  | load (path : Text)
  /-- Adds hints to eligible rules, then applies further transforms to all rules. -/
  | apply (more : List Transform)
  /-- Adds hints to a rule, eligible or not. -/
  | addHints (rule : Nat)
  /-- Adds hints to a rule if it is eligible. -/
  | transformRule (rule : Nat)
  /-- Appends a declaration to a rule. -/
  | addDeclaration (rule : Nat) (decl : Declaration)
  /-- Gives a rule other selectors, possibly none. -/
  | setSelectors (rule : Nat) (selectors : List Text)
  | status
  | walk
  | render (layout : Layout)
  /-- Takes a text. -/
  | text (s : Text)
  /-- Takes the written stylesheet as the text. -/
  | takeText (layout : Layout)
  /-- Adds hints to the text, and reports. -/
  | accelerate (layout : Layout) (more : List Transform)
  /-- Adds hints to the text. -/
  | transform

/-- What a step answers. -/
inductive Answer
  | done
  | nodes (sheet : Stylesheet)
  /-- Whether two trees are equal. -/
  | equal (b : Bool)
  | config (c : Config)
  | text (s : Text)
  /-- The number of rules changed, and the tree. -/
  | changed (count : Nat) (sheet : Stylesheet)
  /-- The properties of a rule. -/
  | properties (names : List Text)
  /-- Whether a rule has been changed, and its properties. -/
  | ruleChanged (b : Bool) (names : List Text)
  /-- For each rule, whether it is excluded, has a target and is eligible. -/
  | status (rules : List (Bool × Bool × Bool))
  | walk (entries : List (List AtHead × Rule))
  | report (r : Report)

/-- Why a step fails. -/
inductive Failure
  | source (e : SourceError)
  /-- A rule without selectors cannot be made. -/
  | emptyRule
  | render (e : RenderError)
  | unsettled (e : Config.Unsettled)
  | config (e : ConfigError)
  | noSuchRule
  | file (path : PlainPath) (e : FileTree.OpenError)

/-- The words for a failure. -/
def Failure.message : Failure → Text
  | .source e => e.message
  | .emptyRule => Rule.emptyMessage
  | .render e => e.message
  | .unsettled e => e.message
  | .config e => e.message
  | .noSuchRule => "no such rule"
  | .file path e =>
    "[Errno " ++ Text.ofNat e.number ++ "] " ++ e.message ++ ": " ++
      Text.quoted path.toText

/-- For a rule: it is excluded, has a target, is eligible. -/
def ruleStatus (c : Config) (r : Rule) : Bool × Bool × Bool :=
  (r.isExcluded c, r.hasTarget c, r.isEligible c)

/-- The session with rule number `i` changed by `f`, and the answer `answer` of the changed
rule. -/
def editRule (s : Session) (i : Nat) (f : Rule → Rule) (answer : Rule → Answer) :
    Except Failure (Session × Answer) :=
  match s.sheet.updateRule? i f, s.sheet.rules[i]? with
  | some sheet, some r => .ok ({ s with sheet }, answer (f r))
  | _, _ => .error .noSuchRule

/-- The session with other settings. -/
def withConfig (s : Session) (c : Config) : Session × Answer := ({ s with config := c }, .config c)

/-- What a step does, if it does not fail. -/
def step (s : Session) : Step → Except Failure (Session × Answer)
  | .parse source => do
    let sheet ← (Stylesheet.ofSource source).mapError .source
    return ({ s with sheet }, .nodes sheet)
  | .tree nodes =>
    match Stylesheet.make? nodes with
    | some sheet => .ok ({ s with sheet }, .nodes sheet)
    | none => .error .emptyRule
  | .reparse layout => do
    let written ← (s.sheet.render? layout).mapError .render
    let sheet ← (Stylesheet.ofSource written).mapError .source
    return ({ s with sheet }, .equal (sheet = s.sheet))
  | .config changes => do
    return s.withConfig (← (Config.update {} changes).mapError .unsettled)
  | .options o => do
    return s.withConfig (← (Config.ofOptions o).mapError fun e => .config (.option e))
  | .replace changes => do
    return s.withConfig (← (s.config.update changes).mapError .unsettled)
  | .save path => do
    let saved := s.config.saved
    let path := PlainPath.ofText path
    let files ← (s.files.write path.toText (Utf8.encode saved)).mapError (.file path)
    return ({ s with files }, .text saved)
  | .write path content => do
    let path := PlainPath.ofText path
    let made ← (s.files.makeDirectories path.parent).mapError fun (p, e) => .file p e
    let files ← (made.write path.toText content).mapError (.file path)
    return ({ s with files }, .done)
  | .load path => do
    let path := PlainPath.ofText path
    let content ← (s.files.read path.toText).mapError (.file path)
    return s.withConfig (← (Config.load path.toText content).mapError .config)
  | .apply more =>
    let (sheet, count) := s.sheet.transform s.config more
    .ok ({ s with sheet }, .changed count sheet)
  | .addHints i => s.editRule i (·.append s.config.hints) fun r => .properties r.properties
  | .transformRule i =>
    let changed := (s.sheet.rules[i]?).any fun r => (Transform.hints s.config r).2
    s.editRule i (fun r => r.append (Transform.hints s.config r).1) fun r =>
      .ruleChanged changed r.properties
  | .addDeclaration i decl => s.editRule i (·.append [decl]) fun r => .properties r.properties
  | .setSelectors i selectors =>
    s.editRule i (fun r => { r with selectors }) fun r => .text (r.render .spaced)
  | .status => .ok (s, .status (s.sheet.rules.map (ruleStatus s.config)))
  | .walk => .ok (s, .walk s.sheet.walk)
  | .render layout => do
    return (s, .text (← (s.sheet.render? layout).mapError .render))
  | .text t => .ok ({ s with text := t }, .done)
  | .takeText layout => do
    let written ← (s.sheet.render? layout).mapError .render
    return ({ s with text := written }, .text written)
  | .accelerate layout more =>
    let report := CssHints.accelerate s.text s.config layout more
    .ok ({ s with text := report.output }, .report report)
  | .transform =>
    let report := CssHints.accelerate s.text s.config .spaced []
    .ok ({ s with text := report.output }, .text report.output)

/-- The answers of the steps, one after the other. -/
def run (s : Session) : List Step → List (Except Failure Answer)
  | [] => []
  | t :: ts =>
    match s.step t with
    | .ok (s', answer) => .ok answer :: run s' ts
    | .error e => .error e :: run s ts

end Session

end CssHints
