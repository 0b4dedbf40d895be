import CssHints.Text.Quoted
import CssHints.Token.Tokenize

/-!
# `CssHints.Stylesheet.Error`: why a source is no stylesheet

An error is a cause and a place. `message` gives the words, with the place at the end.
-/

set_option autoImplicit false

namespace CssHints

/-- Where a run of tokens stands. -/
inductive RunPlace
  /-- Before a block or a semicolon. -/
  | prelude
  /-- In the value of a property. -/
  | value (property : Text)
  deriving DecidableEq, Repr

/-- Why a list of tokens is no stylesheet. -/
inductive ParseFault
  /-- The list does not end with an `eof` token. -/
  | missingEnd
  /-- A block has no end. -/
  | missingBrace
  /-- A closing brace outside blocks. -/
  | unmatchedBrace
  /-- The opening bracket `opener` is not closed where the run ends. -/
  | unclosedGroup (opener : Text) (place : RunPlace)
  | unrecognizedAtRule (name : Text)
  | blockRequired (name : Text)
  | unterminatedAtRule (name : Text)
  | blockRefused (name : Text)
  | tooDeep
  /-- Selectors without a block. -/
  | missingBlock
  /-- A block without selectors. -/
  | missingSelector
  | missingProperty (found : Text)
  | missingColon (property : Text)
  /-- A block inside the value of a property. -/
  | blockInValue (property : Text)
  deriving DecidableEq, Repr

/-- A cause and the place of the token that shows it. -/
structure ParseError where
  fault : ParseFault
  loc : Option Location
  deriving DecidableEq, Repr

/-- An error at a token. -/
def ParseFault.atToken (fault : ParseFault) (t : Token) : ParseError := ⟨fault, some t.loc⟩

/-- A source that is no stylesheet: it has no tokens, or its tokens do not fit together. -/
inductive SourceError
  | lex (e : LexError)
  | parse (e : ParseError)
  deriving DecidableEq, Repr

/-- The words for a place. -/
def RunPlace.message : RunPlace → Text
  | .prelude => "prelude"
  | .value p => "value of " ++ Text.quoted p

/-- The words for a cause. -/
def ParseFault.message : ParseFault → Text
  | .missingEnd => "Token stream must end with EOF"
  | .missingBrace => "Missing closing brace for block"
  | .unmatchedBrace => "Unmatched closing brace"
  | .unclosedGroup opener place => "Unclosed '" ++ opener ++ "' in " ++ place.message
  | .unrecognizedAtRule name => "Unrecognized at-rule @" ++ name
  | .blockRequired name => "@" ++ name ++ " requires a block"
  | .unterminatedAtRule name => "Unterminated @" ++ name ++ " rule"
  | .blockRefused name => "@" ++ name ++ " does not take a block"
  | .tooDeep => "At-rules nested deeper than 256 levels"
  | .missingBlock => "Expected '\x7b' after selector"
  | .missingSelector => "Rule block has no selector"
  | .missingProperty found => "Expected a property name, found " ++ Text.quoted found
  | .missingColon property => "Expected ':' after property " ++ Text.quoted property
  | .blockInValue property => "Unexpected '\x7b' in value of " ++ Text.quoted property

/-- The place as it is written behind a message. -/
def Location.suffix (l : Location) : Text :=
  " (line " ++ Text.ofInt l.line ++ ", column " ++ Text.ofInt l.column ++ ")"

/-- The place of an error, if it has one. -/
def SourceError.loc : SourceError → Option Location
  | .lex e => some e.loc
  | .parse e => e.loc

/-- The words for an error, with its place if it has one. -/
def SourceError.message (e : SourceError) : Text :=
  let cause := match e with
    | .lex e => e.fault.message
    | .parse e => e.fault.message
  match e.loc with
  | some l => cause ++ l.suffix
  | none => cause

end CssHints
