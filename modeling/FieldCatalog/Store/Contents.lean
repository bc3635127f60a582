import FieldCatalog.Listing.Order
import FieldCatalog.Record.Entry
import FieldCatalog.Store.Table

/-!
# The contents of a catalog

The contents are a table of categories and a table of fields. Everything a screen shows is read
off them: the listing of a scope, its size, and the configuration of an area.

## Main definitions

* `Contents`: the two tables
* `Contents.Referential`: every field lies in an existing category
* `Contents.categoriesOf`, `Contents.fieldsOf`, `Contents.list`, `Contents.count`: listings
* `Contents.configuration`: the categories of an area with their fields
* `Contents.fieldByShortname`: the field of a short name within an area
-/

namespace FieldCatalog

/-- The rows of a catalog. -/
@[ext]
structure Contents where
  categories : Table Category Category.id
  fields : Table Field Field.id
deriving Inhabited

namespace Contents

/-- No rows at all. -/
def empty : Contents := ⟨.empty, .empty⟩

/-- Every field lies in an existing category. -/
def Referential (c : Contents) : Prop :=
  ∀ field ∈ c.fields, ∃ category ∈ c.categories, category.id = field.categoryid

/-- The category with the given number. -/
def category? (c : Contents) (id : Id) : Option Category :=
  c.categories.find? id

/-- The field with the given number. -/
def field? (c : Contents) (id : Id) : Option Field :=
  c.fields.find? id

/-- Whether a category of the given number exists. -/
def hasCategory (c : Contents) (id : Id) : Bool :=
  (c.category? id).isSome

/-- The categories of an area in display order. -/
def categoriesOf (c : Contents) (area : Area) : List Category :=
  Listing.arrange Category.member (c.categories.rows.filter fun row => row.area = area)

/-- The fields of a category in display order. -/
def fieldsOf (c : Contents) (categoryid : Id) : List Field :=
  Listing.arrange Field.member (c.fields.rows.filter fun row => row.categoryid = categoryid)

/-- The entries of a listing in display order: the rows are drawn as entries, which are then put in
order. -/
def list (c : Contents) : Scope → List Member
  | .categories area =>
    Listing.arrange id ((c.categories.rows.filter fun row => row.area = area).map Category.member)
  | .fields categoryid =>
    Listing.arrange id
      ((c.fields.rows.filter fun row => row.categoryid = categoryid).map Field.member)

/-- How many entries a listing has. -/
def count (c : Contents) : Scope → Nat
  | .categories area => c.categories.rows.countP fun row => row.area = area
  | .fields categoryid => c.fields.rows.countP fun row => row.categoryid = categoryid

/-- The names of the categories of an area, as they lie in the table. -/
def categoryNames (c : Contents) (area : Area) : List String :=
  (c.categories.rows.filter fun row => row.area = area).map Category.name

/-- The categories of an area with their fields, everything in display order. -/
def configuration (c : Contents) (area : Area) : List Section :=
  (c.categoriesOf area).map fun category => ⟨category, c.fieldsOf category.id⟩

/-- The field of a short name in the categories of an area. The categories are joined with their
fields of that name, both in display order; should there be several fields, the first is taken. -/
def fieldByShortname (c : Contents) (area : Area) (shortname : String) : Option Field :=
  let homes := Listing.arrange Category.member (c.categories.rows.filter fun home => home.area = area)
  (homes.flatMap fun home => Listing.arrange Field.member
    (c.fields.rows.filter fun row => row.categoryid = home.id ∧ row.shortname = shortname)).head?

/-- The area that a listing belongs to, unless its category is missing. -/
def areaOf? (c : Contents) : Scope → Option Area
  | .categories area => some area
  | .fields categoryid => (c.category? categoryid).map Category.area

end Contents

end FieldCatalog
