import CssHints.Config.Options
import CssHints.Json.Reader
import CssHints.Json.Writer
import CssHints.Text.Newline
import CssHints.Text.Utf8

/-!
# `CssHints.Config.Store`: settings in a file

A file of settings holds one JSON object, the mapping form of the settings.

A file that is no text, no JSON text or no object is reported with its path, and a value that does
not fit with its key. A file that the JSON reader gives up as too much for it has the words of that
reader only.
-/

set_option autoImplicit false

namespace CssHints

/-- Why a file gives no settings. -/
inductive ConfigError
  | notText (path : Text) (fault : Utf8.Fault)
  | notJson (path : Text) (error : Json.ReadError)
  | notObject (path : Text)
  | option (error : Config.OptionError)
  /-- The file is too much for the reader. -/
  | excess (x : Json.Excess)

/-- The words for a file that gives no settings. -/
def ConfigError.message : ConfigError → Text
  | .notText path fault => "Config file " ++ path ++ " is not UTF-8 text: " ++ fault.message
  | .notJson path error => "Invalid JSON in " ++ path ++ ": " ++ error.message
  | .notObject path => "Config file " ++ path ++ " must contain a JSON object"
  | .option error => error.message
  | .excess x => x.message

namespace Config

/-- The settings in the file `path` with the given content. -/
def load (path : Text) (content : Bytes) (limits : Json.Limits := .standard) :
    Except ConfigError Config :=
  match Utf8.decode content with
  | .error fault => .error (.notText path fault)
  | .ok source =>
    match Json.read (Text.normalizeNewlines source) limits with
    | .error (.fault e) => .error (.notJson path e)
    | .error (.excess x) => .error (.excess x)
    | .ok (.obj members) => (ofOptions members).mapError .option
    | .ok _ => .error (.notObject path)

/-- The text of the file that keeps the settings. -/
def saved (c : Config) : Text := Json.writeObject c.toOptions

end Config

end CssHints
