import CssHints.Hint
import CssHints.Stylesheet.Parser
import CssHints.Stylesheet.Printer

/-!
# `CssHints.Report`: a source with hints

`accelerate` reads a source, adds hints and writes the result. A source that is no stylesheet is
passed through unchanged, with the error. The report counts the rules, those eligible before
anything was added, and those changed; its notices tell what happened, in order.
-/

set_option autoImplicit false

namespace CssHints

/-- How much a notice matters. -/
inductive Level
  | debug
  | warning
  deriving DecidableEq, Repr

/-- Something worth telling about a run. -/
inductive Notice
  | dropped (d : Dropped)
  | finished (total eligible changed : Nat)
  | passedThrough (e : SourceError)
  deriving DecidableEq, Repr

namespace Notice

/-- How much a notice matters. -/
def level : Notice → Level
  | dropped _ => .debug
  | finished _ _ _ => .debug
  | passedThrough _ => .warning

/-- The part of the program that gives the notice. -/
def channel : Notice → Text
  | dropped _ => "gpuaccel.css.parser"
  | finished _ _ _ => "gpuaccel.pipeline"
  | passedThrough _ => "gpuaccel.pipeline"

/-- The words of a notice. -/
def message : Notice → Text
  | dropped d =>
    "Dropping empty declaration " ++ Text.quoted d.property ++ " at line " ++ Text.ofInt d.line
  | finished total eligible changed =>
    "Accelerated stylesheet: rules=" ++ Text.ofNat total ++ " matched=" ++ Text.ofNat eligible ++
      " changed=" ++ Text.ofNat changed
  | passedThrough e => "CSS parser error, returning original stylesheet: " ++ e.message

end Notice

/-- The written name of a level. -/
def Level.label : Level → Text
  | .debug => "DEBUG"
  | .warning => "WARNING"

/-- What a run gives. -/
structure Report where
  output : Text
  /-- The rules at any depth. -/
  total : Nat := 0
  /-- The rules that were eligible before anything was added. -/
  eligible : Nat := 0
  /-- The rules for which a transform reported a change. -/
  changed : Nat := 0
  /-- Why the source was passed through unchanged. -/
  failure : Option SourceError := none
  notices : List Notice := []
  deriving DecidableEq, Repr

/-- The source with hints, and what happened on the way. -/
def accelerate (source : Text) (c : Config) (layout : Layout) (more : List Transform) : Report :=
  let reading := Stylesheet.read source
  let dropped := reading.dropped.map Notice.dropped
  match reading.result with
  | .error e =>
    { output := source, failure := some e, notices := dropped ++ [.passedThrough e] }
  | .ok sheet =>
    let total := sheet.rules.length
    let eligible := (sheet.rules.filter (·.isEligible c)).length
    let (changedSheet, changed) := sheet.transform c more
    { output := changedSheet.render layout, total, eligible, changed,
      notices := dropped ++ [.finished total eligible changed] }

end CssHints
