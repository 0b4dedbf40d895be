import CssHints.Json.Value
import CssHints.Text.Location

/-!
# `CssHints.Json.Reader`: reading a JSON text

`read` gives the value of a text, or the first fault with its place. The readers work on a cursor:
the place and the text from there on. A value is read with a bound on how deep the readers may call
each other; twice the length of the text is such a bound, since every second call takes at least
one character.

A reader takes integers and nestings of a limited size only (`Limits`). A text beyond the limits is
given up where they are exceeded, whatever stands behind, and this is no fault of the text: the two
are told apart (`Refusal`), since only a fault is reported as one.

Beyond the numbers of the standard, `NaN`, `Infinity` and `-Infinity` are read. A character given
by two escapes, the halves of a surrogate pair, is one character. Half a pair by itself is no
character, so no text of this library holds it; it is read as a mark that no source has, see
`charsOf`.
-/

set_option autoImplicit false

namespace CssHints.Json

/-- What is wrong with a JSON text. -/
inductive Fault
  | byteOrderMark
  | missingValue
  | extraData
  | missingKey
  | missingColon
  | missingComma
  | unterminatedString
  | controlCharacter
  | badEscape
  | badCodePoint
  deriving DecidableEq, Repr

/-- A fault and its place. -/
structure ReadError where
  fault : Fault
  loc : Location
  deriving DecidableEq, Repr

/-! ### Limits -/

/-- How much a reader takes. The limits are those of the machine that reads and not of the format:
how many digits it turns into an integer, and how many calls it has room for. -/
structure Limits where
  /-- The digits of an integer, without its sign; `none` is no limit. -/
  digits : Option Nat
  /-- The arrays and objects that may be open at once; `none` is no limit. -/
  depth : Option Nat
  /-- There is room for one array or object. -/
  depth_ne : depth ≠ some 0 := by rintro ⟨⟩
  deriving DecidableEq, Repr

/-- The limits a text is read with unless others are given. -/
def Limits.standard : Limits := { digits := some 4300, depth := some 987 }

/-- The reader without limits. -/
def Limits.unlimited : Limits := { digits := none, depth := none }

/-- A value that holds others. -/
inductive Container
  | array
  | object
  deriving DecidableEq, Repr

/-- The word for a container. -/
def Container.label : Container → Text
  | .array => "array"
  | .object => "object"

/-- What of a text is too much for a reader. -/
inductive Excess
  /-- An integer of `count` digits, where `limit` are taken. -/
  | digits (limit count : Nat)
  /-- A container inside too many others. -/
  | nesting (kind : Container)
  deriving DecidableEq, Repr

/-- The words for what is too much. -/
def Excess.message : Excess → Text
  | .digits limit count =>
    "Exceeds the limit (" ++ Text.ofNat limit ++
      " digits) for integer string conversion: value has " ++ Text.ofNat count ++
      " digits; use sys.set_int_max_str_digits() to increase the limit"
  | .nesting kind =>
    "maximum recursion depth exceeded while decoding a JSON " ++ kind.label ++
      " from a unicode string"

/-- Why a text is not read. -/
inductive Refusal
  /-- It is no JSON text. -/
  | fault (e : ReadError)
  /-- It is given up at something beyond the limits. -/
  | excess (x : Excess)
  deriving DecidableEq, Repr

namespace Limits

/-- An integer of `count` digits is within the limits. -/
def checkDigits (limits : Limits) (count : Nat) : Except Refusal Unit :=
  match limits.digits with
  | none => .ok ()
  | some limit => if limit < count then .error (.excess (.digits limit count)) else .ok ()

/-- A further container is within the limits where `depth` are open. -/
def checkDepth (limits : Limits) (kind : Container) (depth : Nat) : Except Refusal Unit :=
  match limits.depth with
  | none => .ok ()
  | some limit => if limit ≤ depth then .error (.excess (.nesting kind)) else .ok ()

end Limits

/-- A place in a text and what stands from there on. -/
structure Cursor where
  loc : Location
  rest : Text
  deriving DecidableEq, Repr

namespace Cursor

/-- The cursor behind the first `n` characters. -/
def skip (n : Nat) (cur : Cursor) : Cursor := ⟨cur.loc.after (cur.rest.take n), cur.rest.drop n⟩

/-- The fault at the cursor. -/
def fail {α : Type} (cur : Cursor) (fault : Fault) : Except Refusal α :=
  .error (.fault ⟨fault, cur.loc⟩)

end Cursor

/-- A blank between the parts of a JSON text. -/
def isBlank (c : Char) : Bool := c = ' ' || c = '\t' || c = '\n' || c = '\r'

/-- The cursor behind the blanks at it. -/
def skipBlanks (cur : Cursor) : Cursor := cur.skip (cur.rest.takeWhile isBlank).length

/-! ### Strings -/

/-- The value of a hexadecimal digit. -/
def hexValue? (c : Char) : Option Nat :=
  if c.isDigit then some (c.toNat - '0'.toNat)
  else if 'a' ≤ c ∧ c ≤ 'f' then some (c.toNat - 'a'.toNat + 10)
  else if 'A' ≤ c ∧ c ≤ 'F' then some (c.toNat - 'A'.toNat + 10)
  else none

/-- The number of four hexadecimal digits with at least one character behind them. -/
def unit? : Text → Option Nat
  | a :: b :: c :: d :: _ :: _ => do
    let high := (← hexValue? a) * 16 + (← hexValue? b)
    let low := (← hexValue? c) * 16 + (← hexValue? d)
    return high * 256 + low
  | _ => none

/-- The number is the first half of a surrogate pair. -/
def isHighHalf (n : Nat) : Bool := 0xD800 ≤ n && n < 0xDC00

/-- The number is the second half of a surrogate pair. -/
def isLowHalf (n : Nat) : Bool := 0xDC00 ≤ n && n < 0xE000

/-- The second half of a surrogate pair, written as an escape at the start of the text. -/
def lowHalf? (s : Text) : Option Nat :=
  if ['\\', 'u'].isPrefixOf s then (unit? (s.drop 2)).filter isLowHalf else none

/-- What half a surrogate pair is read as. The mark holds a carriage return, and a source whose
lines end in line feeds has none, so an entry with half a pair matches no part of it; there is no
blank at its ends, where entries are trimmed. -/
def halfMark : Text := ['\ufffd', '\r', '\ufffd']

/-- The text of a code point. -/
def charsOf (n : Nat) : Text := if isHighHalf n || isLowHalf n then halfMark else [Char.ofNat n]

/-- The character that a letter behind a backslash stands for. -/
def shortEscape? : Char → Option Char
  | '\x22' => some '\x22'
  | '\\' => some '\\'
  | '/' => some '/'
  | 'b' => some '\x08'
  | 'f' => some '\x0c'
  | 'n' => some '\n'
  | 'r' => some '\r'
  | 't' => some '\t'
  | _ => none

/-- What an escape at the cursor stands for. -/
def readEscape (opening : Location) (cur : Cursor) : Except Refusal (Text × Cursor) :=
  match cur.rest.drop 1 with
  | [] => .error (.fault ⟨.unterminatedString, opening⟩)
  | c :: s =>
    if c = 'u' then
      match unit? s with
      | none => (cur.skip 1).fail .badCodePoint
      | some n =>
        -- a first half takes the second one with it if that follows; a half on its own is kept as a
        -- mark
        match isHighHalf n, lowHalf? (s.drop 4) with
        | true, some low =>
          .ok ([Char.ofNat (0x10000 + (n - 0xD800) * 0x400 + (low - 0xDC00))], cur.skip 12)
        | _, _ => .ok (charsOf n, cur.skip 6)
    else match shortEscape? c with
      | some d => .ok ([d], cur.skip 2)
      | none => cur.fail .badEscape

/-- The rest of a string that was opened at `opening`, to behind its closing quote. -/
def readString (opening : Location) : Nat → Cursor → Except Refusal (Text × Cursor)
  | 0, _ => .error (.fault ⟨.unterminatedString, opening⟩)
  | fuel + 1, cur =>
    match cur.rest with
    | [] => .error (.fault ⟨.unterminatedString, opening⟩)
    | c :: _ =>
      if c = '\x22' then .ok ([], cur.skip 1)
      -- ends of lines included: a string goes on to its quote on one line
      else if c.toNat < 0x20 then cur.fail .controlCharacter
      else do
        let (d, next) ← if c = '\\' then readEscape opening cur else .ok ([c], cur.skip 1)
        let (s, last) ← readString opening fuel next
        return (d ++ s, last)

/-! ### Numbers -/

/-- The value of decimal digits. -/
def digitsValue (s : Text) : Nat := s.foldl (fun n c => n * 10 + (c.toNat - '0'.toNat)) 0

/-- The length of the digits of an integer at the start of a text: a zero, or digits that do not
start with one. -/
def wholeLength : Text → Nat
  | [] => 0
  | c :: s => if c = '0' then 1 else if c.isDigit then 1 + (s.takeWhile Char.isDigit).length else 0

/-- The digits behind a point at the start of a text. -/
def fractionDigits : Text → Text
  | '.' :: s => s.takeWhile Char.isDigit
  | _ => []

/-- The sign and the digits of an exponent at the start of a text, behind its mark. -/
def exponentParts : Text → Text × Text
  | c :: s =>
    if c = '-' ∨ c = '+' then ([c], s.takeWhile Char.isDigit)
    else ([], (c :: s).takeWhile Char.isDigit)
  | [] => ([], [])

/-- A number at the cursor, as far as it goes. Only an integer can have too many digits. -/
def readNumber (limits : Limits) (cur : Cursor) : Except Refusal (Json × Cursor) :=
  let negative := cur.rest.head? = some '-'
  let sign := if negative then 1 else 0
  let s := cur.rest.drop sign
  let whole := s.take (wholeLength s)
  if whole = [] then cur.fail .missingValue
  else
    let s := s.drop whole.length
    let fraction := fractionDigits s
    -- a point without digits behind it is left, and so is the mark of an exponent without digits
    let fractionLength := if fraction = [] then 0 else fraction.length + 1
    let s := s.drop fractionLength
    let marked := s.head? = some 'e' || s.head? = some 'E'
    let exponent := if marked then exponentParts (s.drop 1) else ([], [])
    let exponentLength := if exponent.2 = [] then 0 else 1 + exponent.1.length + exponent.2.length
    let next := cur.skip (sign + whole.length + fractionLength + exponentLength)
    -- a number with a fraction or an exponent is no integer, and has no limit on its digits
    if fractionLength = 0 ∧ exponentLength = 0 then
      let n : Int := digitsValue whole
      (limits.checkDigits whole.length).map fun _ => (.int (if negative then -n else n), next)
    else
      let e : Int := digitsValue exponent.2
      let e := if exponent.1 = ['-'] then -e else e
      let digits := digitsValue (whole ++ fraction)
      .ok (.real (.ofDecimal negative digits (e - fraction.length)), next)

/-! ### Values -/

/-- The words that stand for a value. -/
def words : List (Text × Json) :=
  [("null", .null), ("true", .bool true), ("false", .bool false), ("NaN", .real .nan),
   ("Infinity", .real (.infinite false)), ("-Infinity", .real (.infinite true))]

/-- A word or a number at the cursor. -/
def readScalar (limits : Limits) (cur : Cursor) : Except Refusal (Json × Cursor) :=
  -- words come first, since one of them starts with the sign of a number
  match words.find? fun w => w.1.isPrefixOf cur.rest with
  | some (w, v) => .ok (v, cur.skip w.length)
  | none => readNumber limits cur

mutual

/-- The value at the cursor, where `depth` arrays and objects are open. -/
def readValue (limits : Limits) : Nat → Nat → Cursor → Except Refusal (Json × Cursor)
  | 0, _, cur => cur.fail .missingValue
  | fuel + 1, depth, cur =>
    match cur.rest with
    | '\x22' :: _ => do
      let (s, next) ← readString cur.loc cur.rest.length (cur.skip 1)
      return (.str s, next)
    | '\x7b' :: _ => do
      limits.checkDepth .object depth
      let inner := skipBlanks (cur.skip 1)
      if inner.rest.head? = some '\x7d' then return (.obj [], inner.skip 1)
      else
        let (members, next) ← readMembers limits fuel (depth + 1) [] inner
        return (.obj members, next)
    | '[' :: _ => do
      limits.checkDepth .array depth
      let inner := skipBlanks (cur.skip 1)
      if inner.rest.head? = some ']' then return (.arr [], inner.skip 1)
      else
        let (items, next) ← readItems limits fuel (depth + 1) inner
        return (.arr items, next)
    | _ => readScalar limits cur

/-- The items of an array from one item on, to behind the closing bracket. -/
def readItems (limits : Limits) : Nat → Nat → Cursor → Except Refusal (List Json × Cursor)
  | 0, _, cur => cur.fail .missingValue
  | fuel + 1, depth, cur => do
    let (v, next) ← readValue limits fuel depth cur
    let next := skipBlanks next
    if next.rest.head? = some ']' then return ([v], next.skip 1)
    else if next.rest.head? = some ',' then
      let (vs, last) ← readItems limits fuel depth (skipBlanks (next.skip 1))
      return (v :: vs, last)
    else next.fail .missingComma

/-- The members of an object from one key on, to behind the closing brace; `members` stand
before. -/
def readMembers (limits : Limits) :
    Nat → Nat → List (Text × Json) → Cursor → Except Refusal (List (Text × Json) × Cursor)
  | 0, _, _, cur => cur.fail .missingKey
  | fuel + 1, depth, members, cur =>
    -- also behind a comma, so a closing brace there is a fault
    if cur.rest.head? ≠ some '\x22' then cur.fail .missingKey
    else do
      let (key, colon) ← readString cur.loc cur.rest.length (cur.skip 1)
      let colon := skipBlanks colon
      if colon.rest.head? ≠ some ':' then colon.fail .missingColon
      else
        let (v, next) ← readValue limits fuel depth (skipBlanks (colon.skip 1))
        let members := put key v members
        let next := skipBlanks next
        if next.rest.head? = some '\x7d' then return (members, next.skip 1)
        else if next.rest.head? = some ',' then
          readMembers limits fuel depth members (skipBlanks (next.skip 1))
        else next.fail .missingComma

end

/-- The value of a JSON text. -/
def read (source : Text) (limits : Limits := .standard) : Except Refusal Json :=
  if source.head? = some '\ufeff' then .error (.fault ⟨.byteOrderMark, .start⟩)
  else do
    let (v, next) ← readValue limits (2 * source.length + 2) 0 (skipBlanks ⟨.start, source⟩)
    let last := skipBlanks next
    if last.rest = [] then return v else last.fail .extraData

/-- The words for a fault. -/
def Fault.message : Fault → Text
  | .byteOrderMark => "Unexpected UTF-8 BOM (decode using utf-8-sig)"
  | .missingValue => "Expecting value"
  | .extraData => "Extra data"
  | .missingKey => "Expecting property name enclosed in double quotes"
  | .missingColon => "Expecting ':' delimiter"
  | .missingComma => "Expecting ',' delimiter"
  | .unterminatedString => "Unterminated string starting at"
  | .controlCharacter => "Invalid control character at"
  | .badEscape => "Invalid \\escape"
  | .badCodePoint => "Invalid \\uXXXX escape"

/-- The words for an error, with its place. -/
def ReadError.message (e : ReadError) : Text :=
  e.fault.message ++ ": line " ++ Text.ofInt e.loc.line ++ " column " ++ Text.ofInt e.loc.column ++
    " (char " ++ Text.ofNat e.loc.offset ++ ")"

end CssHints.Json
