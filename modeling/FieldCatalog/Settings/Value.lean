import FieldCatalog.Decimal.Numeral
import FieldCatalog.Decimal.Shortest
import FieldCatalog.Toml.Table

/-!
# Values of settings

A file or the environment gives values of many kinds, and a setting is a text or a number. Most
kinds can be converted to both.

## Main definitions

* `Settings.Value`: what can be given for a setting
* `Settings.Value.text?`: a value as a text
* `Settings.Value.word?`, `Settings.Value.number?`: a value as a number
* `Settings.Coercion`: the conversions that settings go through
-/

namespace FieldCatalog.Settings

/-- What can be given for a setting. Tables and arrays are composite, the empty
ones too. -/
inductive Value
  | text (s : String)
  | integer (i : Int)
  | double (x : Binary64)
  | infinity (negative : Bool)
  | notANumber
  | boolean (b : Bool)
  | composite
deriving DecidableEq, Repr

/-- What a value of a settings file gives. -/
def Value.ofToml : Toml → Value
  | .string s | .moment s => .text s
  | .integer i => .integer i
  | .double x => .double x
  | .infinity negative => .infinity negative
  | .notANumber => .notANumber
  | .boolean b => .boolean b
  | .array _ _ | .table _ _ => .composite

/-- A double in positional notation, with a point only if digits follow it. -/
def plainDouble (x : Binary64) : String :=
  let (ds, point) := (Decimal.shortest .up x).layout
  let magnitude := if x.significand = 0 then ['0'] else Decimal.positional ds point []
  String.ofList (if x.negative then '-' :: magnitude else magnitude)

/-- A value as a text. -/
def Value.text? : Value → Option String
  | .text s => some s
  | .integer i => some (toString i)
  | .double x => some (plainDouble x)
  | .infinity negative => some (if negative then "-inf" else "inf")
  | .notANumber => some "NaN"
  | .boolean b => some (if b then "true" else "false")
  | .composite => none

/-- How many unsigned words of 64 bits there are. -/
def wordBound : Nat := UInt64.size

/-- The number that a text stands for: a word of consent or refusal in any case, or a decimal
natural with a plus sign or none. -/
def numberOfText (s : String) : Option Nat :=
  let lower := s.toList.map Char.toLower
  if ["true", "on", "yes"].any fun word => word.toList = lower then some 1
  else if ["false", "off", "no"].any fun word => word.toList = lower then some 0
  else match s.toList with
    | '+' :: cs => Decimal.natural? cs
    | cs => Decimal.natural? cs

/-- A value as an unsigned word. Doubles are rounded, halves away from zero, and what lies outside
the range of words goes to its nearer end; what is no number at all counts as zero. -/
def Value.word? : Value → Option Nat
  | .text s => (numberOfText s).filter (· < wordBound)
  | .integer (.ofNat n) => some n
  | .integer (.negSucc _) => none
  | .double x => some (min x.round.toNat (wordBound - 1))
  | .infinity negative => some (if negative then 0 else wordBound - 1)
  | .notANumber => some 0
  | .boolean b => some (if b then 1 else 0)
  | .composite => none

/-- A value as a natural number below a bound. -/
def Value.number? (bound : Nat) (v : Value) : Option Nat :=
  v.word?.filter (· < bound)

/-- How a value becomes a text, and a natural number below a bound. -/
structure Coercion where
  text? : Value → Option String
  number? : Nat → Value → Option Nat

/-- The conversions above. -/
def Coercion.standard : Coercion where
  text? := Value.text?
  number? := Value.number?

end FieldCatalog.Settings
