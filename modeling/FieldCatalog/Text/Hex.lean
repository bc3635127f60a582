/-!
# Hexadecimal digits

## Main definitions

* `hexDigit?`: the value of one digit
* `hexNumber?`: the value of a run of digits
-/

namespace FieldCatalog.Text

/-- The value of a hexadecimal digit of either case. -/
def hexDigit? (c : Char) : Option Nat :=
  if c.isDigit then some (c.toNat - '0'.toNat)
  else if 'a' ≤ c ∧ c ≤ 'f' then some (c.toNat - 'a'.toNat + 10)
  else if 'A' ≤ c ∧ c ≤ 'F' then some (c.toNat - 'A'.toNat + 10)
  else none

/-- The number written by hexadecimal digits. -/
def hexNumber? (cs : List Char) : Option Nat :=
  cs.foldl (fun value c => value.bind fun n => (hexDigit? c).map fun d => 16 * n + d) (some 0)

end FieldCatalog.Text
