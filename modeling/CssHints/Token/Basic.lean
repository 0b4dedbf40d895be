import CssHints.Text.Location

/-!
# `CssHints.Token.Basic`: the words of a stylesheet

A token is a stretch of source text with its lexical class and its place. Tokens are also built
by hand, with any class, text and place, so nothing here ties the three together;
`CssHints.Token.Tokenize` says how they fit for a token that was read from a source.
-/

set_option autoImplicit false

namespace CssHints

/-- The lexical class of a token. -/
inductive Kind
  | ident
  | atKeyword
  | hash
  | string
  | url
  | number
  | percentage
  | dimension
  | whitespace
  | delim
  | lbrace
  | rbrace
  | lparen
  | rparen
  | lbracket
  | rbracket
  | colon
  | semicolon
  | comma
  | eof
  /-- A class that no source text has. Only tokens built by hand have it. -/
  | other (label : String)
  deriving DecidableEq, Repr

namespace Kind

/-- The written name of a class. -/
def label : Kind → String
  | ident => "IDENT"
  | atKeyword => "AT_KEYWORD"
  | hash => "HASH"
  | string => "STRING"
  | url => "URL"
  | number => "NUMBER"
  | percentage => "PERCENTAGE"
  | dimension => "DIMENSION"
  | whitespace => "WHITESPACE"
  | delim => "DELIM"
  | lbrace => "LBRACE"
  | rbrace => "RBRACE"
  | lparen => "LPAREN"
  | rparen => "RPAREN"
  | lbracket => "LBRACKET"
  | rbracket => "RBRACKET"
  | colon => "COLON"
  | semicolon => "SEMICOLON"
  | comma => "COMMA"
  | eof => "EOF"
  | other l => l

/-- The classes that source texts have, and the end of a source. -/
def all : List Kind :=
  [ident, atKeyword, hash, string, url, number, percentage, dimension, whitespace, delim, lbrace,
   rbrace, lparen, rparen, lbracket, rbracket, colon, semicolon, comma, eof]

/-- The class with the written name `l`. -/
def ofLabel (l : String) : Kind := (all.find? (·.label == l)).getD (other l)

/-- The class of a character that stands for itself. -/
def ofChar : Char → Kind
  | '\x7b' => lbrace
  | '\x7d' => rbrace
  | '(' => lparen
  | ')' => rparen
  | '[' => lbracket
  | ']' => rbracket
  | ':' => colon
  | ';' => semicolon
  | ',' => comma
  | _ => delim

/-- The class that closes a group opened by the given one. -/
def closer? : Kind → Option Kind
  | lparen => some rparen
  | lbracket => some rbracket
  | _ => none

/-- A token of the class opens a group. -/
def isOpener (k : Kind) : Bool := k.closer?.isSome

/-- A token of the class closes a group. -/
def isCloser (k : Kind) : Bool := k = rparen || k = rbracket

/-- A token of the class takes in a name character that follows it directly. -/
def isWord (k : Kind) : Bool :=
  k = ident || k = atKeyword || k = hash || k = number || k = percentage || k = dimension

end Kind

/-- A token: its lexical class, its text and its place. -/
structure Token where
  kind : Kind
  value : Text
  loc : Location := .start
  deriving DecidableEq, Repr

namespace Token

/-- The texts of the tokens, one after the other. -/
def concat (ts : List Token) : Text := ts.flatMap value

end Token

end CssHints
