import FieldCatalog.Decimal.Shortest
import FieldCatalog.Json.Basic

/-!
# Writing JSON

The compact form: no blanks, members in the order of the value, and only quotation marks,
backslashes and control characters escaped. A double is written with the fewest digits that read
back, in positional notation from `1e-5` up to below `1e16` and with a signed exponent elsewhere.

## Main definitions

* `Json.chars`: the characters of a value
* `Json.render`: the text of a value
-/

namespace FieldCatalog.Json

/-- The four digits of a control character after `\u`. -/
def hexDigits (c : Char) : List Char :=
  ['0', '0', Nat.digitChar (c.toNat / 16), Nat.digitChar (c.toNat % 16)]

/-- A character as it stands between quotation marks. -/
def escape (c : Char) : List Char :=
  match c with
  | '"' => ['\\', '"']
  | '\\' => ['\\', '\\']
  | '\x08' => ['\\', 'b']
  | '\x0c' => ['\\', 'f']
  | '\n' => ['\\', 'n']
  | '\r' => ['\\', 'r']
  | '\t' => ['\\', 't']
  | c => if c.toNat < 0x20 then '\\' :: 'u' :: hexDigits c else [c]

/-- A text between quotation marks. -/
def quoted (cs : List Char) : List Char :=
  '"' :: (cs.flatMap escape ++ ['"'])

/-- An integer in decimal notation. -/
def integerChars (i : Int) : List Char :=
  if i < 0 then '-' :: Nat.toDigits 10 i.natAbs else Nat.toDigits 10 i.natAbs

/-- Digits with a point after the first, and the power of ten that the point stands for. -/
def scientific (ds : List Char) (power : Int) : List Char :=
  let fraction := ds.drop 1
  let sign := if power < 0 then '-' else '+'
  ds.take 1 ++ (if fraction.isEmpty then [] else '.' :: fraction) ++
    'e' :: sign :: Nat.toDigits 10 power.natAbs

/-- A double: positional from `1e-5` up to below `1e16`, at least one digit after the point. -/
def doubleChars (x : Binary64) : List Char :=
  let (ds, point) := (Decimal.shortest .even x).layout
  let magnitude :=
    if x.significand = 0 || (-5 < point && point ≤ 16) then Decimal.positional ds point ['.', '0']
    else scientific ds (point - 1)
  if x.negative then '-' :: magnitude else magnitude

mutual

/-- The characters of a value in compact form. -/
def chars : Json → List Char
  | .null => ['n', 'u', 'l', 'l']
  | .bool true => ['t', 'r', 'u', 'e']
  | .bool false => ['f', 'a', 'l', 's', 'e']
  | .integer i => integerChars i
  | .double x => doubleChars x
  | .string s => quoted s.toList
  | .array items => '[' :: (itemChars items ++ [']'])
  | .object members => '\x7b' :: (memberChars members ++ ['\x7d'])

/-- The items of an array with commas between them. -/
def itemChars : List Json → List Char
  | [] => []
  | [item] => item.chars
  | item :: next :: rest => item.chars ++ ',' :: itemChars (next :: rest)

/-- The members of an object with commas between them. -/
def memberChars : List (String × Json) → List Char
  | [] => []
  | [(name, value)] => quoted name.toList ++ ':' :: value.chars
  | (name, value) :: next :: rest =>
    quoted name.toList ++ ':' :: value.chars ++ ',' :: memberChars (next :: rest)

end

/-- The text of a value in compact form. -/
def render (json : Json) : String :=
  String.ofList json.chars

end FieldCatalog.Json
