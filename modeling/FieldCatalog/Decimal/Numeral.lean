/-!
# Decimal numerals

Reading whole numbers written with the digits `0` to `9`.

## Main definitions

* `digit?`: the value of one digit
* `natural?`: the value of a non-empty run of digits
* `integer?`: a natural with an optional sign
* `InWord`: the integers of 64-bit words with a sign
-/

namespace FieldCatalog.Decimal

/-- The value of a decimal digit. -/
def digit? (c : Char) : Option Nat :=
  if c.isDigit then some (c.toNat - '0'.toNat) else none

/-- The digits at the front of a text, read on from `value`, and the rest of the text. -/
def digits (value : Nat) : List Char → Nat × List Char
  | [] => (value, [])
  | c :: cs =>
    match digit? c with
    | some d => digits (10 * value + d) cs
    | none => (value, c :: cs)

/-- The number a text of digits stands for; there must be at least one digit. -/
def natural? : List Char → Option Nat
  | [] => none
  | c :: cs =>
    match digits 0 (c :: cs) with
    | (value, []) => some value
    | (_, _ :: _) => none

/-- The number a text of digits stands for, with a plus or minus sign before it or none. -/
def integer? : List Char → Option Int
  | '-' :: cs => (natural? cs).map fun n => -(n : Int)
  | '+' :: cs => (natural? cs).map fun n => (n : Int)
  | cs => (natural? cs).map fun n => (n : Int)

/-- The integers that fit a signed word of 64 bits. -/
def InWord (i : Int) : Prop :=
  Int64.minValue.toInt ≤ i ∧ i ≤ Int64.maxValue.toInt

instance (i : Int) : Decidable (InWord i) :=
  inferInstanceAs (Decidable (_ ∧ _))

end FieldCatalog.Decimal
