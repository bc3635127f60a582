/-!
# Areas, kinds and scopes

An area names the thing that custom fields are attached to. The categories of one area form an
ordered listing, and so do the fields of one category: these listings are the scopes.

## Main definitions

* `Area`: component, area name and item
* `Kind`: category or field
* `Scope`: one ordered listing
* `Direction`: towards the front or the end of a listing
* `Member`: an entry of a listing with its position
-/

namespace FieldCatalog

/-- The number a row is known by. Texts carry those that fit 64 bits. -/
abbrev Id := Int

/-- What a field configuration belongs to, such as the courses of a site. -/
structure Area where
  component : String
  area : String
  itemid : Int
deriving DecidableEq, Repr, Inhabited

/-- An area in one line. -/
def Area.display (a : Area) : String :=
  a.component ++ "/" ++ a.area ++ "/" ++ toString a.itemid

/-- The two kinds of rows. -/
inductive Kind
  | category
  | field
deriving DecidableEq, Repr, Inhabited

/-- A kind as it appears in messages. -/
def Kind.display : Kind → String
  | .category => "category"
  | .field => "field"

/-- The table that holds the rows of a kind. -/
def Kind.table : Kind → String
  | .category => "Category"
  | .field => "Field"

/-- An ordered listing: the categories of an area, or the fields of a category. -/
inductive Scope
  | categories (area : Area)
  | fields (categoryid : Id)
deriving DecidableEq, Repr

/-- The kind of the entries of a listing. -/
def Scope.kind : Scope → Kind
  | .categories _ => .category
  | .fields _ => .field

/-- A listing as it appears in messages. -/
def Scope.display : Scope → String
  | .categories area => "categories of " ++ area.display
  | .fields categoryid => "fields of category " ++ toString categoryid

/-- Where an arrow moves an entry: up is towards position zero. -/
inductive Direction
  | up
  | down
deriving DecidableEq, Repr, Inhabited

/-- The change of position that a move by one step aims at. -/
def Direction.offset : Direction → Int
  | .up => -1
  | .down => 1

/-- The opposite direction. -/
def Direction.reverse : Direction → Direction
  | .up => .down
  | .down => .up

/-- An entry of a listing: its number and its stored position. -/
structure Member where
  id : Id
  sortorder : Int
deriving DecidableEq, Repr, Inhabited

end FieldCatalog
