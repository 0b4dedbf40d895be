import CssHints.Token.Piece

/-!
# `CssHints.Token.Tokenize`: the tokens of a source

A source is cut into pieces, and each lexeme becomes a token. A run of blanks becomes one space,
unless the token before it is a space already. A comment leaves nothing, unless the token before
it would then run into the piece behind it; in that case it leaves a space too. The list ends
with an `eof` token at the end of the source.
-/

set_option autoImplicit false

namespace CssHints

/-- A source that cannot be cut into pieces: what has no end, and where it starts. -/
structure LexError where
  fault : Token.Fault
  loc : Location
  deriving DecidableEq, Repr

/-- The words for a fault. -/
def Token.Fault.message : Token.Fault → Text
  | .unterminatedComment => "Unterminated comment"
  | .unterminatedString => "Unterminated string literal"
  | .unterminatedUrl => "Unterminated url("

namespace Token

/-- The token of a gap at `loc`: a single space. -/
def space (loc : Location) : Token := ⟨.whitespace, [' '], loc⟩

/-- A token of class `last` would run into the next piece if the two stood side by side. Only the
next piece decides, since a piece holds a name character or an escape whole. -/
def joins (last : Option Kind) (pieces : List Piece) : Bool :=
  match last, pieces with
  | some k, p :: _ =>
    (k = .number && (p.text.head? = some '.' || p.text.head? = some '%')) ||
      (k.isWord && startsName p.text)
  | _, _ => false

/-- The tokens of the pieces that start at `loc`, behind a token of class `last`. -/
def ofPieces (last : Option Kind) (loc : Location) : List Piece → List Token
  | [] => []
  | .blanks s :: ps =>
    if last = some .whitespace then ofPieces last (loc.after s) ps
    else space loc :: ofPieces (some .whitespace) (loc.after s) ps
  | .comment s :: ps =>
    -- the class of the last token is passed on, since comments in a row are one gap
    if joins last ps then space loc :: ofPieces (some .whitespace) (loc.after s) ps
    else ofPieces last (loc.after s) ps
  | .lexeme k s :: ps => ⟨k, s, loc⟩ :: ofPieces (some k) (loc.after s) ps

/-- The tokens of a source, closed by its end. -/
def tokenize (source : Text) : Except LexError (List Token) :=
  let cut := cut source
  let stop := Location.start.after (cut.pieces.flatMap Piece.text)
  match cut.stuck with
  | some (fault, _) => .error ⟨fault, stop⟩
  | none => .ok (ofPieces none .start cut.pieces ++ [⟨.eof, [], stop⟩])

end Token

end CssHints
