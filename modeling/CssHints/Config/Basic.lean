import CssHints.Text.Blank

/-!
# `CssHints.Config.Basic`: the settings of a run

The settings say which hints are added and which rules take them. They are made once and not
changed in place: `update` gives new settings. The two lists of texts must be settled when they
are handed over; a list that its holder may still change is refused.
-/

set_option autoImplicit false

namespace CssHints

/-- A hint that can be switched on or off, in the order in which hints are written. -/
inductive Flag
  | transform
  | willChange
  | backface
  | perspective
  deriving DecidableEq, Repr

/-- All flags, in order. -/
def Flag.all : List Flag := [transform, willChange, backface, perspective]

/-- Which hints are added, and to which rules. -/
structure Config where
  transform : Bool := true
  willChange : Bool := true
  backface : Bool := true
  perspective : Bool := true
  /-- A rule is left alone if one of its selectors holds one of these texts. -/
  exclude : List Text := []
  /-- A rule takes hints if one of its properties holds one of these texts. -/
  target : List Text := ["animation", "transition", "@keyframes"]
  deriving DecidableEq, Repr

namespace Config

/-- Whether a hint is switched on. -/
def flag (c : Config) : Flag → Bool
  | .transform => c.transform
  | .willChange => c.willChange
  | .backface => c.backface
  | .perspective => c.perspective

/-- At least one hint is switched on. -/
def anyEnabled (c : Config) : Bool := Flag.all.any c.flag

/-- A list of texts as it is handed over. -/
structure Entries where
  texts : List Text
  /-- The holder cannot change the list any more. -/
  settled : Bool := true
  deriving DecidableEq, Repr

/-- New values for some of the settings. -/
structure Changes where
  transform : Option Bool := none
  willChange : Option Bool := none
  backface : Option Bool := none
  perspective : Option Bool := none
  exclude : Option Entries := none
  target : Option Entries := none
  deriving DecidableEq, Repr

/-- A list that is not settled. -/
inductive Unsettled
  | exclude
  | target
  deriving DecidableEq, Repr

/-- The words for a list that is not settled. -/
def Unsettled.message : Unsettled → Text
  | .exclude => "exclude_selectors must be a tuple of strings"
  | .target => "target_properties must be a tuple of strings"

/-- The list is given and not settled. -/
def Entries.isOpen (e : Option Entries) : Bool := e.any fun e => !e.settled

/-- The settings with some values changed. Of two lists that are not settled, the excluded
selectors are to blame. -/
def update (c : Config) (ch : Changes) : Except Unsettled Config :=
  if Entries.isOpen ch.exclude then .error .exclude
  else if Entries.isOpen ch.target then .error .target
  else .ok {
    transform := ch.transform.getD c.transform
    willChange := ch.willChange.getD c.willChange
    backface := ch.backface.getD c.backface
    perspective := ch.perspective.getD c.perspective
    exclude := (ch.exclude.map Entries.texts).getD c.exclude
    target := (ch.target.map Entries.texts).getD c.target }

/-- The list without empty texts and without repetitions of earlier ones. -/
def distinct : List Text → List Text
  | [] => []
  | t :: ts => if t = [] then distinct ts else t :: (distinct ts).filter (· ≠ t)

/-- The entries of a list written with commas: trimmed, none empty, none twice. -/
def splitList (raw : Text) : List Text := distinct ((Text.splitOn ',' raw).map Text.trim)

end Config

end CssHints
