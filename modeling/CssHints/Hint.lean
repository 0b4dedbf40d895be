import CssHints.Eligibility

/-!
# `CssHints.Hint`: adding declarations to rules

A transform looks at a rule, appends declarations to it and reports whether that counts as a
change. The built-in one appends the hints that the settings switch on to each eligible rule, and
looks at nothing else: hints that are already there are appended again.

`applyAll` runs transforms in order, each on what the ones before have left; `Stylesheet.transform`
does so for every rule of a tree and counts the rules for which some transform reports a change.
-/

set_option autoImplicit false

namespace CssHints

/-- The declaration of a hint. -/
def Flag.hint : Flag → Declaration
  | .transform => ⟨"transform", "translateZ(0)", false⟩
  | .willChange => ⟨"will-change", "transform", false⟩
  | .backface => ⟨"backface-visibility", "hidden", false⟩
  | .perspective => ⟨"perspective", "1000px", false⟩

/-- The hints that are switched on, in order. -/
def Config.hints (c : Config) : List Declaration := (Flag.all.filter c.flag).map Flag.hint

/-- What a transform does to a rule: the declarations it appends, and its report of a change. -/
abbrev Transform := Rule → List Declaration × Bool

namespace Transform

/-- Appends the hints to eligible rules. It reports a change if there are hints. -/
def hints (c : Config) : Transform := fun r =>
  if r.isEligible c then (c.hints, c.hints ≠ []) else ([], false)

/-- Appends `decls` and reports `report`. If a property is given, only rules with that property
are changed, and for others no change is reported. -/
def appending (decls : List Declaration) (property : Option Text) (report : Bool) : Transform :=
  fun r => if property.all (r.properties.contains ·) then (decls, report) else ([], false)

/-- The rule behind the transforms, and whether one of them reported a change. -/
def applyAll : List Transform → Rule → Rule × Bool
  | [], r => (r, false)
  | t :: ts, r =>
    let added := t r
    let last := applyAll ts (r.append added.1)
    (last.1, added.2 || last.2)

end Transform

/-- The stylesheet with the hints of the settings and then the further transforms applied to each
rule, and the number of rules changed. -/
def Stylesheet.transform (sheet : Stylesheet) (c : Config) (more : List Transform) :
    Stylesheet × Nat :=
  let ts := Transform.hints c :: more
  (Stylesheet.mapRules (fun r => (Transform.applyAll ts r).1) sheet,
    (sheet.rules.filter fun r => (Transform.applyAll ts r).2).length)

end CssHints
