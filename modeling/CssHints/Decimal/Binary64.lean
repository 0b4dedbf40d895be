import CssHints.Text.Basic

/-!
# `CssHints.Decimal.Binary64`: decimals as binary numbers of 64 bits

A decimal `digits · 10 ^ exponent` is read as the nearest number `mantissa · 2 ^ exponent` whose
mantissa has at most 53 bits and whose exponent is at least `-1074`; halfway between two such
numbers, the one with the even mantissa is taken. What is too large becomes infinite.
-/

set_option autoImplicit false

namespace CssHints

/-- A binary number of 64 bits. -/
inductive Binary64
  | nan
  | infinite (negative : Bool)
  /-- The number `mantissa · 2 ^ exponent` with its sign. Zero has a sign too. -/
  | finite (negative : Bool) (mantissa : Nat) (exponent : Int)
  deriving DecidableEq, Repr

namespace Binary64

/-- The least exponent. -/
def minExponent : Int := -1074

/-- The greatest exponent. -/
def maxExponent : Int := 971

/-- The quotient rounded to the nearest integer, and from halfway to the even one. -/
def roundQuotient (num den : Nat) : Nat :=
  let q := num / den
  let r := num % den
  if den < 2 * r ∨ (den = 2 * r ∧ q % 2 = 1) then q + 1 else q

/-- The greatest `k` with `2 ^ k ≤ num / den`. -/
def floorLog2 (num den : Nat) : Int :=
  let k : Int := (Nat.log2 num : Int) - Nat.log2 den
  if num * Nat.pow 2 (-k).toNat < den * Nat.pow 2 k.toNat then k - 1 else k

/-- The number nearest to the positive quotient `num / den`. -/
def ofQuotient (negative : Bool) (num den : Nat) : Binary64 :=
  let e := max (floorLog2 num den - 52) minExponent
  let m := roundQuotient (num * Nat.pow 2 (-e).toNat) (den * Nat.pow 2 e.toNat)
  -- rounding up may reach the next power of two
  let (m, e) := if m = Nat.pow 2 53 then (Nat.pow 2 52, e + 1) else (m, e)
  if maxExponent < e then .infinite negative else .finite negative m e

/-- The number nearest to the decimal `digits · 10 ^ exponent`. A decimal that lies far outside the
range of these numbers is settled by its size alone, so that no huge power is formed. -/
def ofDecimal (negative : Bool) (digits : Nat) (exponent : Int) : Binary64 :=
  let size : Int := (Text.ofNat digits).length + exponent
  if digits = 0 ∨ size < -330 then .finite negative 0 minExponent
  else if 310 < size then .infinite negative
  else ofQuotient negative (digits * Nat.pow 10 exponent.toNat) (Nat.pow 10 (-exponent).toNat)

end Binary64

end CssHints
