/-!
# Finite doubles

A finite double is a sign and a significand times a power of two. Every operation here works on
exact naturals and rounds once, to the nearest double and to the even significand on a tie.

## Main definitions

* `Binary64`: sign, significand and exponent
* `Binary64.ofRatio`: the double nearest to a ratio, or none when it is too large
* `Binary64.mul`, `Binary64.div`: correctly rounded product and quotient
* `Binary64.round`: the nearest integer, halves away from zero
-/

namespace FieldCatalog

/-- The double `significand * 2 ^ exponent`, negated when `negative` holds. A value from `ofRatio`
has its least possible exponent, which makes the three parts unique. -/
structure Binary64 where
  negative : Bool
  significand : Nat
  exponent : Int
deriving DecidableEq, Repr

namespace Binary64

/-- The exponent of the least positive double. -/
def leastExponent : Int := -1074

/-- The largest exponent of a finite double. -/
def greatestExponent : Int := 971

/-- Zero with either sign. -/
def zero (negative : Bool) : Binary64 := ⟨negative, 0, leastExponent⟩

/-- The same value with the sign changed. -/
def neg (x : Binary64) : Binary64 := { x with negative := !x.negative }

/-- The quotient of two naturals, rounded to the nearest integer and to the even one on a tie. -/
def divNearestEven (num den : Nat) : Nat :=
  let q := num / den
  let r := num % den
  if 2 * r < den then q
  else if den < 2 * r then q + 1
  else q + q % 2

/-- The quotient `num / (den * 2 ^ exponent)` as a ratio of naturals. -/
def scaled (num den : Nat) (exponent : Int) : Nat × Nat :=
  (num <<< (-exponent).toNat, den <<< exponent.toNat)

/-- The exponent with which the significand of `num / den` has 53 bits, or the least exponent. -/
def exponentOf (num den : Nat) : Int :=
  -- The logarithms leave the quotient within a factor of two, so the guess is off by one at most.
  let guess : Int := num.log2 - den.log2 - 52
  let (n, d) := scaled num den guess
  max leastExponent (if n / d < 1 <<< 52 then guess - 1 else guess)

/-- The double nearest to `num / den`, where `den` is positive; none when that exceeds every
finite double. -/
def ofRatio (negative : Bool) (num den : Nat) : Option Binary64 :=
  if num = 0 then some (zero negative)
  else
    let e := exponentOf num den
    let (n, d) := scaled num den e
    let m := divNearestEven n d
    -- Rounding up may carry into a bit more.
    let (m, e) := if m = 1 <<< 53 then (1 <<< 52, e + 1) else (m, e)
    if e ≤ greatestExponent then some ⟨negative, m, e⟩ else none

/-- The magnitude of a double as a ratio of naturals. -/
def ratio (x : Binary64) : Nat × Nat :=
  (x.significand <<< x.exponent.toNat, 1 <<< (-x.exponent).toNat)

/-- The product, rounded. -/
def mul (x y : Binary64) : Option Binary64 :=
  let (a, b) := x.ratio
  let (c, d) := y.ratio
  ofRatio (x.negative != y.negative) (a * c) (b * d)

/-- The quotient by a double other than zero, rounded. -/
def div (x y : Binary64) : Option Binary64 :=
  let (a, b) := x.ratio
  let (c, d) := y.ratio
  ofRatio (x.negative != y.negative) (a * d) (b * c)

/-- The nearest integer, halves away from zero. -/
def round (x : Binary64) : Int :=
  let (n, d) := x.ratio
  let magnitude : Nat := (2 * n + d) / (2 * d)
  if x.negative then -(magnitude : Int) else magnitude

end Binary64

end FieldCatalog
