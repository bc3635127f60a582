import FieldCatalog.Record.Entry

/-!
# Rows as JSON

## Main definitions

* `Area.toJson`, `Category.toJson`, `Field.toJson`, `Section.toJson`: rows as objects
* `Scope.toJson`: a listing as an object with its kind
-/

namespace FieldCatalog

/-- The members that describe an area. -/
def Area.members (a : Area) : Json.Members :=
  [("component", .string a.component), ("area", .string a.area), ("itemid", .integer a.itemid)]

/-- An area as an object. -/
def Area.toJson (a : Area) : Json := .ofList a.members

/-- A listing as an object; its kind tells the two sorts apart. -/
def Scope.toJson : Scope → Json
  | .categories area => .ofList (("kind", .string "categories") :: area.members)
  | .fields categoryid =>
    .ofList [("kind", .string "fields"), ("categoryid", .integer categoryid)]

/-- A direction by its name. -/
def Direction.name : Direction → String
  | .up => "up"
  | .down => "down"

/-- The members that describe a category. -/
def Category.members (c : Category) : Json.Members :=
  [("id", .integer c.id), ("name", .string c.name), ("description", .string c.description),
    ("area", c.area.toJson), ("sortorder", .integer c.sortorder),
    ("timecreated", .integer c.timecreated), ("timemodified", .integer c.timemodified)]

/-- A category as an object. -/
def Category.toJson (c : Category) : Json := .ofList c.members

/-- A field as an object, its configuration as text. -/
def Field.toJson (f : Field) : Json :=
  .ofList
    [("id", .integer f.id), ("shortname", .string f.shortname), ("name", .string f.name),
      ("type", .string f.type), ("description", .string f.description),
      ("categoryid", .integer f.categoryid), ("sortorder", .integer f.sortorder),
      ("configdata", .string f.configdata), ("timecreated", .integer f.timecreated),
      ("timemodified", .integer f.timemodified)]

/-- A category and its fields in one object. -/
def Section.toJson (s : Section) : Json :=
  .ofList (s.category.members ++ [("fields", .array (s.fields.map Field.toJson))])

end FieldCatalog
