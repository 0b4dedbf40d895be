import CssHints.Stylesheet.Error

/-!
# `CssHints.Stylesheet.Run`: runs of tokens with groups in them

A run is what stands before a block or a semicolon, or the value of a property. Brackets group
tokens: an opening bracket opens a group, and only the closing bracket of the same form closes
the innermost one. Inside a group a semicolon is part of the run; a brace ends the run anyway, and
then no group may be open.
-/

set_option autoImplicit false

namespace CssHints.Token

/-- The opening brackets of the groups open behind a token, innermost first. -/
def trackGroups (groups : List Token) (t : Token) : List Token :=
  if t.kind.isOpener then t :: groups
  else match groups with
    | [] => []
    | g :: gs => if g.kind.closer? = some t.kind then gs else g :: gs

/-- The result `a`, unless a group is open; then the innermost one is to blame. -/
def unlessOpen {α : Type} (place : RunPlace) (groups : List Token) (a : α) :
    Except ParseError α :=
  match groups with
  | [] => .ok a
  | g :: _ => .error ((ParseFault.unclosedGroup g.value place).atToken g)

/-- The run that the tokens start with, and the rest; `groups` are open at the start. -/
def takeRun (place : RunPlace) (groups : List Token) :
    List Token → Except ParseError (List Token × List Token)
  | [] => unlessOpen place groups ([], [])
  | t :: ts =>
    if t.kind = .rbrace then unlessOpen place groups ([], t :: ts)
    else if t.kind = .semicolon ∧ groups = [] then .ok ([], t :: ts)
    else if t.kind = .lbrace then
      match place with
      | .prelude => unlessOpen place groups ([], t :: ts)
      | .value property => .error ((ParseFault.blockInValue property).atToken t)
    else (takeRun place (trackGroups groups t) ts).map fun p => (t :: p.1, p.2)

/-- A result that is given was given because no group is open, and it is the one that was to be
given. -/
theorem unlessOpen_eq_ok {α : Type} {place : RunPlace} {groups : List Token} {a b : α}
    (h : unlessOpen place groups a = .ok b) : groups = [] ∧ a = b := by
  unfold unlessOpen at h
  split at h
  · cases h
    exact ⟨rfl, rfl⟩
  · cases h

/-- A run and the rest are the tokens that were read. The induction is on the tokens; the groups
that are open change from token to token. -/
theorem takeRun_append {place : RunPlace} {groups ts run rest : List Token}
    (h : takeRun place groups ts = .ok (run, rest)) : run ++ rest = ts := by
  induction ts generalizing groups run rest with
  | nil =>
    have := (unlessOpen_eq_ok h).2
    cases this
    rfl
  | cons t ts ih =>
    unfold takeRun at h
    split at h
    · have := (unlessOpen_eq_ok h).2
      cases this
      rfl
    split at h
    · cases h
      rfl
    split at h
    · split at h
      · have := (unlessOpen_eq_ok h).2
        cases this
        rfl
      · cases h
    · -- no token that stops a run: it belongs to the run, which goes on behind it
      cases hr : takeRun place (trackGroups groups t) ts with
      | error e => simp [hr, Except.map] at h
      | ok p =>
        rw [hr] at h
        cases h
        simp [ih hr]

end CssHints.Token
