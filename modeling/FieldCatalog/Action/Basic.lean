import FieldCatalog.Record.Encode

/-!
# Actions

An action is one gesture on an administration screen. In JSON it is an object whose member
`action` holds the tag and whose other members are the arguments.

## Main definitions

* `Action`: the gestures
* `Action.Tag`: their names
* `Action.toJson`: an action as an object with all of its members
-/

namespace FieldCatalog

/-- One gesture on an administration screen. -/
inductive Action
  | createCategory (area : Area) (name : Option String)
  | renameCategory (id : Id) (name : String)
  | deleteCategory (id : Id)
  | createField (categoryid : Id) (draft : Draft)
  | deleteField (id : Id)
  | moveCategory (id : Id) (direction : Direction)
  | moveField (id : Id) (direction : Direction)
  | dragCategory (id : Id) (before : Option Id)
  | dragField (id : Id) (categoryid before : Option Id)
deriving Repr, Inhabited

namespace Action

/-- What an action does, without its arguments. -/
inductive Tag
  | createCategory
  | renameCategory
  | deleteCategory
  | createField
  | deleteField
  | moveCategory
  | moveField
  | dragCategory
  | dragField
deriving DecidableEq, Repr, Inhabited

/-- The name of a tag. -/
def Tag.name : Tag → String
  | .createCategory => "create_category"
  | .renameCategory => "rename_category"
  | .deleteCategory => "delete_category"
  | .createField => "create_field"
  | .deleteField => "delete_field"
  | .moveCategory => "move_category"
  | .moveField => "move_field"
  | .dragCategory => "drag_category"
  | .dragField => "drag_field"

/-- Every tag. -/
def Tag.all : List Tag :=
  [.createCategory, .renameCategory, .deleteCategory, .createField, .deleteField, .moveCategory,
    .moveField, .dragCategory, .dragField]

/-- The tag of a name. -/
def Tag.ofName? (name : String) : Option Tag :=
  Tag.all.find? fun tag => tag.name == name

/-- The tag of an action. -/
def tag : Action → Tag
  | .createCategory _ _ => .createCategory
  | .renameCategory _ _ => .renameCategory
  | .deleteCategory _ => .deleteCategory
  | .createField _ _ => .createField
  | .deleteField _ => .deleteField
  | .moveCategory _ _ => .moveCategory
  | .moveField _ _ => .moveField
  | .dragCategory _ _ => .dragCategory
  | .dragField _ _ _ => .dragField

/-- The arguments of an action as members. -/
def arguments : Action → Json.Members
  | .createCategory area name => area.members ++ [("name", .ofString? name)]
  | .renameCategory id name => [("id", .integer id), ("name", .string name)]
  | .deleteCategory id | .deleteField id => [("id", .integer id)]
  | .createField categoryid draft =>
    [("categoryid", .integer categoryid), ("shortname", .string draft.shortname),
      ("name", .string draft.name), ("type", .string draft.type),
      ("description", .string draft.description), ("configdata", draft.configdata.getD .null)]
  | .moveCategory id direction | .moveField id direction =>
    [("id", .integer id), ("direction", .string direction.name)]
  | .dragCategory id before => [("id", .integer id), ("before", .ofInteger? before)]
  | .dragField id categoryid before =>
    [("id", .integer id), ("categoryid", .ofInteger? categoryid), ("before", .ofInteger? before)]

/-- An action as an object. -/
def toJson (a : Action) : Json :=
  .ofList (("action", .string a.tag.name) :: a.arguments)

/-- Every tag is found by its name. -/
@[simp]
theorem Tag.ofName?_name (t : Tag) : Tag.ofName? t.name = some t := by
  cases t <;> rfl

end Action

end FieldCatalog
