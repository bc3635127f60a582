import FieldCatalog.Record.Area
import FieldCatalog.Json.Basic

/-!
# Categories and fields

## Main definitions

* `Category`, `Field`: the stored rows
* `Draft`: what is needed to create a field
* `Amendment`: the parts of a field definition to change
* `Section`: a category together with its fields
-/

namespace FieldCatalog

/-- A category of fields. Positions count within its area. -/
structure Category where
  id : Id
  name : String
  description : String
  area : Area
  sortorder : Int
  timecreated : Int
  timemodified : Int
deriving DecidableEq, Repr, Inhabited

/-- The listing a category stands in. -/
def Category.scope (c : Category) : Scope := .categories c.area

/-- A category as an entry of its listing. -/
def Category.member (c : Category) : Member := ⟨c.id, c.sortorder⟩

/-- A custom field. Positions count within its category, and `configdata` is the text of a JSON
object that its type has accepted. -/
structure Field where
  id : Id
  shortname : String
  name : String
  type : String
  description : String
  categoryid : Id
  sortorder : Int
  configdata : String
  timecreated : Int
  timemodified : Int
deriving DecidableEq, Repr, Inhabited

/-- The listing a field stands in. -/
def Field.scope (f : Field) : Scope := .fields f.categoryid

/-- A field as an entry of its listing. -/
def Field.member (f : Field) : Member := ⟨f.id, f.sortorder⟩

/-- What is needed to create a field; its number and position are assigned on insertion. -/
structure Draft where
  shortname : String
  name : String
  type : String
  description : String
  configdata : Option Json
deriving Repr, Inhabited

/-- The parts of a field definition to change. Type and short name stay as they were created. -/
structure Amendment where
  name : Option String
  description : Option String
  configdata : Option Json
deriving Repr, Inhabited

/-- A category together with its fields, as one section of a configuration. -/
structure Section where
  category : Category
  fields : List Field
deriving DecidableEq, Repr, Inhabited

end FieldCatalog
