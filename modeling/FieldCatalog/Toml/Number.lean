import FieldCatalog.Decimal.Numeral
import FieldCatalog.Text.Hex
import FieldCatalog.Toml.Table

/-!
# TOML numbers

Digits may be grouped by underscores between them. Integers fit signed words of 64 bits, and only
decimal ones carry a sign; a float has a fraction, an exponent or both, and is rounded once.

## Main definitions

* `Toml.integer?`: the integer that a text writes
* `Toml.float?`: the float that a text writes
-/

namespace FieldCatalog.Toml

open Decimal (natural? InWord)

/-- The digits of a text in which single underscores stand between digits. -/
def ungrouped (digit : Char → Bool) : List Char → Option (List Char)
  | [] => none
  | [c] => if digit c then some [c] else none
  | c :: '_' :: cs => if digit c then (ungrouped digit cs).map (c :: ·) else none
  | c :: d :: cs => if digit c then (ungrouped digit (d :: cs)).map (c :: ·) else none

/-- A sign, if there is one, and whether it is a minus sign. -/
def signed : List Char → Bool × List Char
  | '-' :: cs => (true, cs)
  | '+' :: cs => (false, cs)
  | cs => (false, cs)

/-- Decimal digits without a zero in front of others. -/
def wholeDigits (cs : List Char) : Option (List Char) := do
  let digits ← ungrouped Char.isDigit cs
  match digits with
  | '0' :: _ :: _ => none
  | digits => some digits

/-- The number written by the digits of a base. -/
def based (base : Nat) (cs : List Char) : Option Nat := do
  let digits ← ungrouped (fun c => (Text.hexDigit? c).any (· < base)) cs
  some (digits.foldl (fun value c => base * value + (Text.hexDigit? c).getD 0) 0)

/-- The integer that a text writes, of any size. -/
def anyInteger? (cs : List Char) : Option Int :=
  match cs with
  | '0' :: 'x' :: cs => (based 16 cs).map Int.ofNat
  | '0' :: 'o' :: cs => (based 8 cs).map Int.ofNat
  | '0' :: 'b' :: cs => (based 2 cs).map Int.ofNat
  | cs => do
    let (negative, cs) := signed cs
    let n ← natural? (← wholeDigits cs)
    some (if negative then -(n : Int) else n)

/-- The integer that a text writes. -/
def integer? (cs : List Char) : Option Int :=
  (anyInteger? cs).filter fun i => InWord i

/-- The double nearest to `digits * 10 ^ exponent`, none when that is too large. Exponents far
beyond those of doubles are settled by the number of digits. -/
def nearest (negative : Bool) (digits : List Char) (exponent : Int) : Option Binary64 := do
  let n ← natural? digits
  let size := (Nat.toDigits 10 n).length + exponent
  if n = 0 ∨ size < -400 then some (Binary64.zero negative)
  else if 400 < size then none
  else Binary64.ofRatio negative (n * Nat.pow 10 exponent.toNat) (Nat.pow 10 (-exponent).toNat)

/-- The digits after the point of a float, if it has one. -/
def fractionOf (cs : List Char) : Option (List Char) :=
  match cs with
  | [] => some []
  | '.' :: cs => ungrouped Char.isDigit cs
  | _ => none

/-- The exponent of a float, if it has one. -/
def exponentOf (cs : List Char) : Option Int :=
  match cs with
  | [] => some 0
  | _ :: cs => do
    let (negative, cs) := signed cs
    let n ← natural? (← ungrouped Char.isDigit cs)
    some (if negative then -(n : Int) else n)

/-- The float that a text writes in decimal notation. -/
def decimalFloat? (negative : Bool) (cs : List Char) : Option Toml := do
  let isMark (c : Char) : Bool := c == 'e' || c == 'E'
  let mantissa := cs.takeWhile fun c => !isMark c
  let mark := cs.dropWhile fun c => !isMark c
  let whole ← wholeDigits (mantissa.takeWhile (· != '.'))
  let point := mantissa.dropWhile (· != '.')
  if point.isEmpty && mark.isEmpty then none
  else
    let fraction ← fractionOf point
    let exponent ← exponentOf mark
    (nearest negative (whole ++ fraction) (exponent - fraction.length)).map .double

/-- The float that a text writes. -/
def float? (cs : List Char) : Option Toml :=
  let (negative, cs) := signed cs
  if cs = "inf".toList then some (.infinity negative)
  else if cs = "nan".toList then some .notANumber
  else decimalFloat? negative cs

end FieldCatalog.Toml
