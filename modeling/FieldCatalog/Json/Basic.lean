import FieldCatalog.Decimal.Binary64

/-!
# JSON values

A number is an integer of at most 64 bits or a double; the two never compare equal. The members of
an object stand in ascending order of their names, each name once, so that equal objects are equal
lists. Only values that were just read off a text hold their members as they were written.

## Main definitions

* `Json`: the values
* `Json.put`, `Json.ofMembers`: members in order, a later value replacing an earlier one
* `Json.settle`: the members of all objects in order
* `Json.natural?`, `Json.signed?`: the two ranges in which a number is read as an integer
* `Json.Canonical`: members in order and integers in range, at every level
-/

namespace FieldCatalog

/-- A JSON value. -/
inductive Json
  | null
  | bool (b : Bool)
  | integer (i : Int)
  | double (x : Binary64)
  | string (s : String)
  | array (items : List Json)
  | object (members : List (String × Json))
deriving Repr, Inhabited

namespace Json

/-- The members of an object. -/
abbrev Members := List (String × Json)

/-- The members with `value` under `name`, kept in ascending order of names. -/
def put (name : String) (value : Json) : Members → Members
  | [] => [(name, value)]
  | (other, old) :: rest =>
    if name = other then (name, value) :: rest
    else if name < other then (name, value) :: (other, old) :: rest
    else (other, old) :: put name value rest

/-- Members in ascending order of names; of several values under one name the last one stays. -/
def ofMembers (members : Members) : Members :=
  members.foldl (fun kept member => put member.1 member.2 kept) []

mutual

/-- The value with the members of all its objects in order. -/
def settle : Json → Json
  | .array items => .array (settleItems items)
  | .object members => .object (ofMembers (settleMembers members))
  | json => json

/-- Every item with its members in order. -/
def settleItems : List Json → List Json
  | [] => []
  | item :: rest => item.settle :: settleItems rest

/-- The value of every member with its members in order. -/
def settleMembers : List (String × Json) → List (String × Json)
  | [] => []
  | (name, value) :: rest => (name, value.settle) :: settleMembers rest

end

/-- An object with the given members. -/
def ofList (members : Members) : Json :=
  .object (ofMembers members)

/-- The integers that a number without point and exponent can hold: those of 64-bit words, with or
without a sign. -/
def InRange (i : Int) : Prop :=
  Int64.minValue.toInt ≤ i ∧ i < UInt64.size

instance (i : Int) : Decidable (InRange i) :=
  inferInstanceAs (Decidable (_ ∧ _))

/-- A number read as an unsigned word of 64 bits. -/
def natural? : Json → Option Nat
  | .integer i => if 0 ≤ i ∧ i < UInt64.size then some i.toNat else none
  | _ => none

/-- A number read as a signed word of 64 bits. -/
def signed? : Json → Option Int
  | .integer i => if Int64.minValue.toInt ≤ i ∧ i ≤ Int64.maxValue.toInt then some i else none
  | _ => none

/-- A value read as a text. -/
def string? : Json → Option String
  | .string s => some s
  | _ => none

/-- A value read as an object. -/
def object? : Json → Option Members
  | .object members => some members
  | _ => none

/-- The value under `name` in an object; nothing in any other value. -/
def get? (json : Json) (name : String) : Option Json :=
  json.object?.bind (·.lookup name)

/-- A missing text is written as null. -/
def ofString? (s : Option String) : Json :=
  s.elim .null .string

/-- A missing integer is written as null. -/
def ofInteger? (i : Option Int) : Json :=
  i.elim .null .integer

mutual

/-- Members stand in strictly ascending order and integers are in range, at every level. -/
def Canonical : Json → Prop
  | .integer i => InRange i
  | .array items => CanonicalItems items
  | .object members => (members.map (·.1)).Pairwise (· < ·) ∧ CanonicalMembers members
  | _ => True

/-- Every item is canonical. -/
def CanonicalItems : List Json → Prop
  | [] => True
  | item :: rest => item.Canonical ∧ CanonicalItems rest

/-- The value of every member is canonical. -/
def CanonicalMembers : List (String × Json) → Prop
  | [] => True
  | (_, value) :: rest => value.Canonical ∧ CanonicalMembers rest

end

end Json

end FieldCatalog
