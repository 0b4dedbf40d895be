import CssHints.Text.Basic

/-!
# `CssHints.Text.Utf8`: texts as bytes

`encode` writes a text as bytes, `decode` reads it back or says what is wrong. A fault covers
the longest stretch that starts a well-formed sequence, at least one byte, and carries the
reason why the sequence ends there.
-/

set_option autoImplicit false

namespace CssHints

/-- The content of a file. -/
abbrev Bytes := List UInt8

namespace Utf8

/-- Why a sequence of bytes is no character. -/
inductive Reason
  /-- No character starts with this byte. -/
  | invalidStart
  /-- The byte after the stretch cannot continue it. -/
  | invalidContinuation
  /-- The bytes end inside a character. -/
  | unexpectedEnd
  deriving DecidableEq, Repr

/-- A stretch of bytes that is no character. -/
structure Fault where
  /-- The number of bytes before the stretch. -/
  offset : Nat
  /-- The number of bytes of the stretch. -/
  length : Nat
  /-- The first byte of the stretch. -/
  byte : UInt8
  /-- What is wrong there. -/
  reason : Reason
  deriving DecidableEq, Repr

/-- The bytes of one character. -/
def encodeChar (c : Char) : Bytes :=
  let n := c.toNat
  if n < 0x80 then [n.toUInt8]
  else if n < 0x800 then [(0xC0 + n / 0x40).toUInt8, (0x80 + n % 0x40).toUInt8]
  else if n < 0x10000 then
    [(0xE0 + n / 0x1000).toUInt8, (0x80 + n / 0x40 % 0x40).toUInt8, (0x80 + n % 0x40).toUInt8]
  else
    [(0xF0 + n / 0x40000).toUInt8, (0x80 + n / 0x1000 % 0x40).toUInt8,
     (0x80 + n / 0x40 % 0x40).toUInt8, (0x80 + n % 0x40).toUInt8]

/-- The bytes of a text. -/
def encode (s : Text) : Bytes := s.flatMap encodeChar

/-- The byte continues a sequence. -/
def isTail (b : UInt8) : Bool := 0x80 ≤ b && b ≤ 0xBF

/-- The byte `b` may follow the first byte `a` of a sequence. Four first bytes narrow the range,
so that no character has two encodings, none is a surrogate, and none is above `10FFFF`. -/
def isSecond (a b : UInt8) : Bool :=
  isTail b && (a ≠ 0xE0 || 0xA0 ≤ b) && (a ≠ 0xED || b ≤ 0x9F) &&
    (a ≠ 0xF0 || 0x90 ≤ b) && (a ≠ 0xF4 || b ≤ 0x8F)

/-- The value of a continuing byte. -/
def tailValue (b : UInt8) : Nat := b.toNat - 0x80

/-- The text of the bytes that start behind `pos` bytes. -/
def decodeFrom (pos : Nat) : Bytes → Except Fault Text
  | [] => .ok []
  | a :: r =>
    if a < 0x80 then (decodeFrom (pos + 1) r).map (Char.ofNat a.toNat :: ·)
    -- `C0` and `C1` could only start a second encoding of a single byte
    else if a < 0xC2 || 0xF4 < a then .error ⟨pos, 1, a, .invalidStart⟩
    else match r with
      | [] => .error ⟨pos, 1, a, .unexpectedEnd⟩
      | b :: r =>
        if !isSecond a b then .error ⟨pos, 1, a, .invalidContinuation⟩
        else if a < 0xE0 then
          (decodeFrom (pos + 2) r).map (Char.ofNat ((a.toNat - 0xC0) * 0x40 + tailValue b) :: ·)
        else match r with
          | [] => .error ⟨pos, 2, a, .unexpectedEnd⟩
          | c :: r =>
            if !isTail c then .error ⟨pos, 2, a, .invalidContinuation⟩
            else if a < 0xF0 then
              (decodeFrom (pos + 3) r).map
                (Char.ofNat ((a.toNat - 0xE0) * 0x1000 + tailValue b * 0x40 + tailValue c) :: ·)
            else match r with
              | [] => .error ⟨pos, 3, a, .unexpectedEnd⟩
              | d :: r =>
                if !isTail d then .error ⟨pos, 3, a, .invalidContinuation⟩
                else
                  (decodeFrom (pos + 4) r).map
                    (Char.ofNat ((a.toNat - 0xF0) * 0x40000 + tailValue b * 0x1000 +
                      tailValue c * 0x40 + tailValue d) :: ·)

/-- The text that the bytes hold. -/
def decode (bytes : Bytes) : Except Fault Text := decodeFrom 0 bytes

/-- The words for a reason. -/
def Reason.message : Reason → Text
  | .invalidStart => "invalid start byte"
  | .invalidContinuation => "invalid continuation byte"
  | .unexpectedEnd => "unexpected end of data"

/-- The words for a fault. A stretch of one byte is shown by its value, a longer one by its first
and last offset. -/
def Fault.message (f : Fault) : Text :=
  let place : Text :=
    if f.length = 1 then
      "byte 0x" ++ Text.hex 2 f.byte.toNat ++ " in position " ++ Text.ofNat f.offset
    else "bytes in position " ++ Text.ofNat f.offset ++ "-" ++ Text.ofNat (f.offset + f.length - 1)
  "'utf-8' codec can't decode " ++ place ++ ": " ++ f.reason.message

end Utf8

end CssHints
