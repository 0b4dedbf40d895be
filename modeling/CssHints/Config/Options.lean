import CssHints.Config.Basic
import CssHints.Json.Value

/-!
# `CssHints.Config.Options`: settings as a mapping

In a mapping a flag is the text `yes` or anything else, and a list is a text with commas. Truth
values, `null` and arrays of texts are read too. Missing keys take their defaults and unknown ones
are passed over. The target list stands under `target_selectors`; `target_properties` is read in
its absence.

The values are read in a fixed order, the flags first, so the first offending one decides the
error.
-/

set_option autoImplicit false

namespace CssHints

/-- The key of a flag. -/
def Flag.key : Flag → Text
  | .transform => "enable_transform"
  | .willChange => "enable_will_change"
  | .backface => "enable_backface"
  | .perspective => "enable_perspective"

namespace Config

/-- The key of the excluded selectors. -/
def excludeKey : Text := "exclude_selectors"

/-- The key of the targets. -/
def targetKey : Text := "target_selectors"

/-- The key that is read for the targets if `targetKey` is missing. -/
def targetAlias : Text := "target_properties"

/-- A value that does not fit its key. -/
inductive OptionError
  | badFlag (key : Text) (value : Json)
  | badItem (key : Text)
  | badList (key : Text) (value : Json)

/-- The words for a value that does not fit. -/
def OptionError.message : OptionError → Text
  | .badFlag key value =>
    "Option " ++ Text.quoted key ++ " must be a boolean or 'yes', got " ++ value.display
  | .badItem key => "Option " ++ Text.quoted key ++ " must contain only strings"
  | .badList key value =>
    "Option " ++ Text.quoted key ++ " must be a comma-separated string or list, got " ++
      value.display

/-- The members of a mapping. -/
abbrev Options := List (Text × Json)

/-- The value under a key. -/
def Options.get? (o : Options) (key : Text) : Option Json :=
  (o.find? fun m => m.1 = key).map Prod.snd

/-- A value as a flag. -/
def readFlag (key : Text) : Json → Except OptionError Bool
  | .bool b => .ok b
  | .str s => .ok (s = "yes".toList)
  | .null => .ok false
  | value => .error (.badFlag key value)

/-- The texts of an array, if it holds nothing else. -/
def texts? : List Json → Option (List Text)
  | [] => some []
  | .str s :: vs => (texts? vs).map (s :: ·)
  | _ :: _ => none

/-- A value as a list of entries. The texts of an array may themselves hold commas. -/
def readEntries (key : Text) : Json → Except OptionError (List Text)
  | .str s => .ok (splitList s)
  | .arr items =>
    match texts? items with
    | some ts => .ok (splitList (Text.join "," ts))
    | none => .error (.badItem key)
  | value => .error (.badList key value)

/-- The flag in a mapping; it is on if it is missing. -/
def Options.flag (o : Options) (f : Flag) : Except OptionError Bool :=
  readFlag f.key ((o.get? f.key).getD (.str "yes"))

/-- The excluded selectors in a mapping; there are none if they are missing. -/
def Options.exclude (o : Options) : Except OptionError (List Text) :=
  readEntries excludeKey ((o.get? excludeKey).getD (.str []))

/-- The targets in a mapping, under either key. -/
def Options.target (o : Options) : Except OptionError (List Text) :=
  let value := (o.get? targetKey).or (o.get? targetAlias)
  readEntries targetKey (value.getD (.str "animation, transition, @keyframes"))

/-- The settings that a mapping stands for. -/
def ofOptions (o : Options) : Except OptionError Config := do
  let transform ← o.flag .transform
  let willChange ← o.flag .willChange
  let backface ← o.flag .backface
  let perspective ← o.flag .perspective
  let exclude ← o.exclude
  let target ← o.target
  return { transform, willChange, backface, perspective, exclude, target }

/-- The settings as a mapping of texts. -/
def toOptions (c : Config) : List (Text × Text) :=
  Flag.all.map (fun f => (f.key, if c.flag f then "yes".toList else [])) ++
    [(excludeKey, Text.join ", " c.exclude), (targetKey, Text.join ", " c.target)]

end Config

end CssHints
