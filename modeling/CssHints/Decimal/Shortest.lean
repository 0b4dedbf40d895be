import CssHints.Decimal.Binary64

/-!
# `CssHints.Decimal.Shortest`: the shortest decimal that reads back

A binary number is written with the fewest digits that are read back as the same number; among
decimals of that length the nearest is taken, and of two equally near ones the even. The digits
are found by trying one digit, two digits and so on, in exact arithmetic: on each grid only the
two neighbours of the number can be nearest.

A decimal is written with a point and at least one digit behind it, if its leading digit stands
at a power of ten from `-4` to `15`; otherwise with an exponent of at least two digits.
-/

set_option autoImplicit false

namespace CssHints.Decimal

/-- The non-negative fraction `num / den`. -/
structure Fraction where
  num : Nat
  den : Nat

namespace Fraction

/-- The fraction `m · 2 ^ e`. -/
def ofBinary (m : Nat) (e : Int) : Fraction := ⟨m * Nat.pow 2 e.toNat, Nat.pow 2 (-e).toNat⟩

/-- The fraction `c · 10 ^ e`. -/
def ofDecimal (c : Nat) (e : Int) : Fraction :=
  ⟨c * Nat.pow 10 e.toNat, Nat.pow 10 (-e).toNat⟩

/-- The order of two fractions. -/
def cmp (a b : Fraction) : Ordering := compare (a.num * b.den) (b.num * a.den)

/-- The greatest integer that is not above `a / b`. -/
def floorDiv (a b : Fraction) : Nat := a.num * b.den / (a.den * b.num)

/-- The greatest `k` with `10 ^ k ≤ a`. -/
def floorLog10 (a : Fraction) : Int :=
  let k : Int := ((Text.ofNat a.num).length : Int) - (Text.ofNat a.den).length
  if cmp a (ofDecimal 1 k) = .lt then k - 1 else k

end Fraction

/-- The decimal `c · 10 ^ e` is read as the number `m · 2 ^ q`: it lies between the points
halfway to the two neighbours, and may be such a point if `m` is even. -/
def readsBack (m : Nat) (q : Int) (c : Nat) (e : Int) : Bool :=
  -- the neighbour below a power of two is at half the distance
  let below := if m = Nat.pow 2 52 ∧ Binary64.minExponent < q then 4 * m - 1 else 4 * m - 2
  let low := Fraction.cmp (.ofBinary below (q - 2)) (.ofDecimal c e)
  let high := Fraction.cmp (.ofDecimal c e) (.ofBinary (4 * m + 2) (q - 2))
  let inside (o : Ordering) : Bool := o = .lt || (m % 2 = 0 && o = .eq)
  inside low && inside high

/-- The nearest multiple of `10 ^ e` that reads back as `m · 2 ^ q`, if one does. -/
def onGrid? (m : Nat) (q : Int) (e : Int) : Option Nat :=
  let x := Fraction.ofBinary m q
  let c := x.floorDiv (.ofDecimal 1 e)
  match readsBack m q c e, readsBack m q (c + 1) e with
  | true, false => some c
  | false, true => some (c + 1)
  | false, false => none
  | true, true =>
    match Fraction.cmp (.ofBinary (2 * m) q) (.ofDecimal (2 * c + 1) e) with
    | .lt => some c
    | .gt => some (c + 1)
    | .eq => some (if c % 2 = 0 then c else c + 1)

/-- The digits and the power of ten of the last one, for the positive number `m · 2 ^ q`.
Seventeen digits tell all numbers apart; beyond them all digits of the number are taken. -/
def shortest (m : Nat) (q : Int) : Nat × Int :=
  let k := (Fraction.ofBinary m q).floorLog10
  let found := (List.range 17).findSome? fun (n : Nat) => (onGrid? m q (k - n)).map (·, k - n)
  found.getD (m * Nat.pow 2 q.toNat * Nat.pow 5 (-q).toNat, min q 0)

/-- The digits of a number without the zeros at their end. -/
def significantDigits (c : Nat) : Text :=
  ((Text.ofNat c).reverse.dropWhile (· = '0')).reverse

/-- The positive number `c · 10 ^ e` as text. -/
def layout (c : Nat) (e : Int) : Text :=
  let digits := significantDigits c
  -- the power of ten of the leading digit
  let lead : Int := (Text.ofNat c).length + e - 1
  if -4 ≤ lead ∧ lead < 16 then
    if lead < 0 then "0." ++ (List.replicate (-lead - 1).toNat '0' ++ digits)
    else
      let places := lead.toNat + 1
      let whole := digits.take places ++ List.replicate (places - digits.length) '0'
      let rest := digits.drop places
      whole ++ '.' :: (if rest = [] then ['0'] else rest)
  else
    let exponent := Text.ofNat lead.natAbs
    let mantissa := match digits with
      | [] => []
      | [d] => [d]
      | d :: ds => d :: '.' :: ds
    mantissa ++ 'e' :: (if lead < 0 then '-' else '+') ::
      (List.replicate (2 - exponent.length) '0' ++ exponent)

/-- A binary number as text. -/
def render : Binary64 → Text
  | .nan => "nan"
  | .infinite negative => if negative then "-inf" else "inf"
  | .finite negative m q =>
    let size : Text := if m = 0 then "0.0" else let d := shortest m q; layout d.1 d.2
    if negative then '-' :: size else size

end CssHints.Decimal
