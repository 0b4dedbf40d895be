import CssHints.Text.Basic

/-!
# `CssHints.Command.Arguments`: switches among the arguments of a command

A switch has short names, a hyphen and one character, and long names. It stands alone or takes a
value. A long name takes its value behind an equals sign or from the next argument; short names
may share one hyphen, and the first that takes a value takes the rest of the argument, or the next
one if nothing is left. A value is taken as it is, also if it starts with a hyphen. Two hyphens
alone end the switches, and a hyphen alone is no switch.

The arguments of the program are read by a library that this development does not look into. What
it does with them is assumed to be as follows, and all that is proved about runs rests on it.

* The rules for switches are those above. A name counts only as a whole: no abbreviation of a long
  name is taken for it, and an unknown name is an error wherever it stands before two hyphens.
* Arguments are read from left to right, and the first that cannot be read decides the error. A
  value is never looked at while arguments are read.
* Errors in the arguments end the program with the number 2 before any file is written. Their words
  belong to the library; `UsageError.message` gives only their sense, and no statement is about
  more than that there is an error.
-/

set_option autoImplicit false

namespace CssHints.Command

/-- What a switch stands for. -/
inductive Meaning (α : Type)
  | alone (a : α)
  | withValue (f : Text → α)

/-- A switch: its names, and what it stands for. -/
structure Switch (α : Type) where
  names : List Text
  meaning : Meaning α

/-- Arguments that a command does not understand. -/
inductive UsageError
  | unknownSwitch (name : Text)
  | missingValue (name : Text)
  | unexpectedValue (name : Text)
  | missingCommand
  | unknownCommand (name : Text)
  | missingArgument
  | extraArgument (value : Text)
  | unreadableSource (path : Text)
  | missingFile (path : Text)
  deriving DecidableEq, Repr

/-- The words for arguments that a command does not understand. -/
def UsageError.message : UsageError → Text
  | .unknownSwitch name => "No such option: " ++ name
  | .missingValue name => "Option '" ++ name ++ "' requires an argument."
  | .unexpectedValue name => "Option '" ++ name ++ "' does not take a value."
  | .missingCommand => "Missing command."
  | .unknownCommand name => "No such command '" ++ name ++ "'."
  | .missingArgument => "Missing argument 'SOURCE'."
  | .extraArgument value => "Got unexpected extra argument (" ++ value ++ ")"
  | .unreadableSource path => "Invalid value for 'SOURCE': '" ++ path ++ "' cannot be opened."
  | .missingFile path => "Invalid value for '--config': '" ++ path ++ "' is no file."

/-- What the arguments hold: what their switches stand for, in order, and the other arguments. -/
structure Parsed (α : Type) where
  settings : List α
  others : List Text

/-- A name that can share its hyphen with others. -/
def isShort (name : Text) : Bool := name.length = 2

/-- The meaning of the switch with the given name. -/
def meaning? {α : Type} (switches : List (Switch α)) (name : Text) : Option (Meaning α) :=
  (switches.find? (·.names.contains name)).map Switch.meaning

/-- What one argument holds: the settings in it, and the switch that still waits for a value. -/
structure Reading (α : Type) where
  settings : List α
  waiting : Option (Text × (Text → α)) := none

/-- Reads short names that share a hyphen. -/
def readShort {α : Type} (switches : List (Switch α)) : Text → Except UsageError (Reading α)
  | [] => .ok ⟨[], none⟩
  | c :: s =>
    match meaning? switches ['-', c] with
    | none => .error (.unknownSwitch ['-', c])
    | some (.alone a) => (readShort switches s).map fun r => ⟨a :: r.settings, r.waiting⟩
    | some (.withValue f) =>
      if s = [] then .ok ⟨[], some (['-', c], f)⟩ else .ok ⟨[f s], none⟩

/-- Reads an argument that starts with a hyphen. Long names are tried first. -/
def readSwitch {α : Type} (switches : List (Switch α)) (arg : Text) :
    Except UsageError (Reading α) :=
  let name := arg.takeWhile (· ≠ '=')
  let value := arg.dropWhile (· ≠ '=')
  match (if isShort name then none else meaning? switches name), value with
  | some (.alone a), [] => .ok ⟨[a], none⟩
  | some (.alone _), _ :: _ => .error (.unexpectedValue name)
  | some (.withValue f), [] => .ok ⟨[], some (name, f)⟩
  | some (.withValue f), _ :: v => .ok ⟨[f v], none⟩
  | none, _ =>
    if ['-', '-'].isPrefixOf arg then .error (.unknownSwitch name)
    else readShort switches (arg.drop 1)

/-- The argument is read as a switch. -/
def isSwitch (arg : Text) : Bool := arg.head? = some '-' && arg.length ≠ 1

/-- Reads the arguments. If switches may not stand among the others, the first other argument
ends them. -/
def parseArguments {α : Type} (switches : List (Switch α)) (mixed : Bool) :
    List Text → Except UsageError (Parsed α)
  | [] => .ok ⟨[], []⟩
  | arg :: args =>
    if arg = ['-', '-'] then .ok ⟨[], args⟩
    else if isSwitch arg then
      match readSwitch switches arg with
      | .error e => .error e
      | .ok ⟨settings, none⟩ =>
        (parseArguments switches mixed args).map fun p => ⟨settings ++ p.settings, p.others⟩
      | .ok ⟨settings, some (name, f)⟩ =>
        match args with
        | [] => .error (.missingValue name)
        | v :: args =>
          (parseArguments switches mixed args).map fun p =>
            ⟨settings ++ f v :: p.settings, p.others⟩
    else if mixed then
      (parseArguments switches mixed args).map fun p => ⟨p.settings, arg :: p.others⟩
    else .ok ⟨[], arg :: args⟩

end CssHints.Command
