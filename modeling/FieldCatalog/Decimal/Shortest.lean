import FieldCatalog.Decimal.Binary64

/-!
# Shortest decimals of doubles

The shortest decimal of a double is the one with the fewest digits among the decimals that read
back as that double, and the nearest to it among those. It is found on ever finer decimal grids:
the coarsest grid with a point in the interval of numbers that round to the double gives the
fewest digits, and one of the two grid points next to the double is such a point.

## Main definitions

* `Decimal.Scaled`: digits times a power of ten
* `Decimal.Tie`: which of two equally near decimals is taken
* `Decimal.shortest`: the shortest decimal of a double
* `Decimal.positional`: digits written out with a point
-/

namespace FieldCatalog.Decimal

/-- The number `digits * 10 ^ exponent`. -/
structure Scaled where
  digits : Nat
  exponent : Int
deriving DecidableEq, Repr

/-- The numbers that round to a positive double, in quarters of its last place: from `low` to `high`
around `value`, both ends belonging to it when `closed` holds. -/
structure Interval where
  low : Nat
  value : Nat
  high : Nat
  closed : Bool
deriving Repr

/-- The numbers that round to `x`. Below a power of two the doubles lie twice as close. -/
def interval (x : Binary64) : Interval where
  low :=
    if x.significand = 1 <<< 52 && Binary64.leastExponent < x.exponent then 4 * x.significand - 1
    else 4 * x.significand - 2
  value := 4 * x.significand
  high := 4 * x.significand + 2
  closed := x.significand % 2 = 0

/-- Whether `point / unit` lies in the interval. -/
def Interval.contains (i : Interval) (unit point : Nat) : Bool :=
  if i.closed then i.low * unit ≤ point && point ≤ i.high * unit
  else i.low * unit < point && point < i.high * unit

/-- Which of two equally near decimals is taken: the one with the even last digit or the greater
one. -/
inductive Tie
  | even
  | up
deriving DecidableEq, Repr

/-- Whether the lower of two equally near points is taken. -/
def Tie.takesBelow : Tie → Nat → Bool
  | .even, below => below % 2 = 0
  | .up, _ => false

/-- The point of the grid of multiples of `10 ^ power` that lies in the interval of `x` and nearest
to `x`, if there is one. -/
def onGrid (tie : Tie) (x : Binary64) (power : Int) : Option Scaled :=
  -- Without fractions, `v * 2 ^ place = p * 10 ^ power` reads `v * unit = p * step`.
  let i := interval x
  let place := x.exponent - 2
  let unit := Nat.pow 10 (-power).toNat <<< place.toNat
  let step := Nat.pow 10 power.toNat <<< (-place).toNat
  let below := i.value * unit / step
  let above := below + 1
  match i.contains unit (below * step), i.contains unit (above * step) with
  | true, true =>
    let left := i.value * unit - below * step
    let right := above * step - i.value * unit
    if left < right || (left = right && tie.takesBelow below) then some ⟨below, power⟩
    else some ⟨above, power⟩
  | true, false => some ⟨below, power⟩
  | false, true => some ⟨above, power⟩
  | false, false => none

/-- A power of ten above the double: the logarithm of two is below 30103 / 100000 by less than
the margin of two. -/
def upperPower (x : Binary64) : Int :=
  ((x.significand.log2 : Int) + x.exponent) * 30103 / 100000 + 2

/-- The first grid with a point for `x`, trying `tries` grids downward from `10 ^ power`. -/
def firstGrid (tie : Tie) (x : Binary64) (power : Int) : Nat → Scaled
  | 0 => ⟨0, power⟩
  | tries + 1 => (onGrid tie x power).getD (firstGrid tie x (power - 1) tries)

/-- The shortest decimal of the magnitude of a double. Seventeen digits always suffice, and the
first grid tried is at most a few powers above the double. -/
def shortest (tie : Tie) (x : Binary64) : Scaled :=
  if x.significand = 0 then ⟨0, 0⟩ else firstGrid tie x (upperPower x) 24

/-- The digits of a decimal and the place of its point, counted from before the first digit. -/
def Scaled.layout (s : Scaled) : List Char × Int :=
  let ds := Nat.toDigits 10 s.digits
  (ds, ds.length + s.exponent)

/-- Digits with a point after the first `point` of them, filled up with zeros; `whole` follows the
digits of an integer. -/
def positional (ds : List Char) (point : Int) (whole : List Char) : List Char :=
  if point ≤ 0 then '0' :: '.' :: (List.replicate (-point).toNat '0' ++ ds)
  else if ds.length ≤ point.toNat then
    ds ++ List.replicate (point.toNat - ds.length) '0' ++ whole
  else ds.take point.toNat ++ '.' :: ds.drop point.toNat

end FieldCatalog.Decimal
