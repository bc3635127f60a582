import FieldCatalog.Json.Basic

/-!
# The value of a JSON number

A literal without fraction and exponent is an integer as long as it fits 64 bits; minus zero and
every other literal is a double. The double is found in two roundings: the leading digits that fit
a word of 64 bits are rounded to a double, which is then multiplied or divided by the double of a
power of ten.

## Main definitions

* `Json.Literal`: the parts of a literal
* `Json.Literal.value?`: the number it stands for, none when it exceeds every double
-/

namespace FieldCatalog.Json

/-- The parts of a number literal: its sign, the digits before and after the point, and its
exponent. -/
structure Literal where
  negative : Bool
  whole : List Nat
  fraction : Option (List Nat)
  exponent : Option Int
deriving DecidableEq, Repr

/-- Reads digits on from `value` while the number fits a word of 64 bits. The digits left over are
the second part. -/
def absorb (value : Nat) : List Nat → Nat × List Nat
  | [] => (value, [])
  | d :: ds => if 10 * value + d < UInt64.size then absorb (10 * value + d) ds else (value, d :: ds)

/-- The double nearest to a power of ten, which is finite up to the power of 308. -/
def tenPower (power : Nat) : Option Binary64 :=
  Binary64.ofRatio false (Nat.pow 10 power) 1

/-- `x * 10 ^ exponent` for an `x` that is zero or at least one and below `2 ^ 64`. Powers below
`10 ^ -308` are reached in two divisions, and a third one would leave nothing. -/
def scale (x : Binary64) (exponent : Int) : Option Binary64 :=
  if 0 ≤ exponent ∧ exponent ≤ 308 then (tenPower exponent.toNat).bind x.mul
  else if -308 ≤ exponent ∧ exponent < 0 then (tenPower (-exponent).toNat).bind x.div
  else if x.significand = 0 then some x
  else if 0 < exponent then none
  else if exponent < -616 then some (Binary64.zero x.negative)
  else ((tenPower 308).bind x.div).bind fun y => (tenPower (-exponent - 308).toNat).bind y.div

/-- The greatest exponent that is read as a number. A larger one makes the literal zero or too
large for a double. -/
def exponentLimit : Int := Int32.maxValue.toInt

/-- The double that `significand * 10 ^ (shift + exponent)` is read as. -/
def doubleOf (significand : Nat) (shift exponent : Int) : Option Binary64 :=
  if exponentLimit < exponent then
    if significand = 0 then some (Binary64.zero false) else none
  else if exponent < -exponentLimit then some (Binary64.zero false)
  else (Binary64.ofRatio false significand 1).bind (scale · (shift + exponent))

/-- The number a literal stands for, none when it exceeds every double. -/
def Literal.value? (l : Literal) : Option Json :=
  let (significand, left) := absorb 0 l.whole
  if left = [] ∧ l.fraction = none ∧ l.exponent = none ∧
      (l.negative = false ∨ (0 < significand ∧ Int64.minValue.toInt ≤ -(significand : Int))) then
    some (.integer (if l.negative then -(significand : Int) else significand))
  else
    let fraction := l.fraction.getD []
    let (significand, rest) := absorb significand fraction
    -- Whole digits left over still count as places; digits left over behind the point do not.
    let shift : Int := (left.length : Int) - ((fraction.length : Int) - rest.length)
    (doubleOf significand shift (l.exponent.getD 0)).map fun x =>
      .double (if l.negative then x.neg else x)

end FieldCatalog.Json
