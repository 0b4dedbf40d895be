import CssHints.Decimal.Shortest
import CssHints.Text.Quoted

/-!
# `CssHints.Json.Value`: the values of a JSON text

Numbers without fraction and exponent are integers of any size, all others are binary numbers. An
object keeps the order in which its keys first stood; a key that stands again takes the later
value.

`display` shows a value as error messages do.
-/

set_option autoImplicit false

namespace CssHints

/-- A JSON value. -/
inductive Json
  | null
  | bool (b : Bool)
  | int (n : Int)
  | real (x : Binary64)
  | str (s : Text)
  | arr (items : List Json)
  | obj (members : List (Text × Json))
  deriving Repr

namespace Json

/-- The members with `value` under `key`: in the place of the key if it is there, else at the
end. -/
def put (key : Text) (value : Json) : List (Text × Json) → List (Text × Json)
  | [] => [(key, value)]
  | m :: ms => if m.1 = key then (key, value) :: ms else m :: put key value ms

mutual

/-- The value as an error message shows it. -/
def display : Json → Text
  | null => "None"
  | bool true => "True"
  | bool false => "False"
  | int n => Text.ofInt n
  | real x => Decimal.render x
  | str s => Text.quoted s
  | arr items => "[" ++ Text.join ", " (displayItems items) ++ "]"
  | obj members => "\x7b" ++ Text.join ", " (displayMembers members) ++ "\x7d"

/-- The items of an array, each as an error message shows it. -/
def displayItems : List Json → List Text
  | [] => []
  | v :: vs => v.display :: displayItems vs

/-- The members of an object, each as an error message shows it. -/
def displayMembers : List (Text × Json) → List Text
  | [] => []
  | (k, v) :: ms => (Text.quoted k ++ ": " ++ v.display) :: displayMembers ms

end

end Json

end CssHints
