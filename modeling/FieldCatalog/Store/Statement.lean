import FieldCatalog.Failure
import FieldCatalog.Store.Contents

/-!
# Statements

A statement reads and changes the contents and may fail. What it wrote before it failed stays
written; undoing it is the business of a transaction.

A row put with the number zero is new and receives the next free number. A field must lie in an
existing category, and a category with fields cannot be deleted; a statement that would break this
fails and changes nothing.

## Main definitions

* `Statement`: a step on the contents
* `Statement.putCategory`, `Statement.putField`: insertion and replacement
* `Statement.setSortorder`, `Statement.setCategory`: single columns
* `Statement.delete`, `Statement.deleteFieldsOf`: deletion
-/

namespace FieldCatalog

/-- A step on the contents that may fail. -/
abbrev Statement (α : Type) := ExceptT Failure (StateM Contents) α

namespace Statement

/-- What a statement answers and leaves behind when it starts from the given contents. -/
def on {α : Type} (s : Statement α) (c : Contents) : Except Failure α × Contents :=
  s.run.run c

/-- A result that does not depend on the contents. -/
def ofResult {α : Type} (result : Except Failure α) : Statement α :=
  fun c => (result, c)

/-- Reads something off the contents. -/
def query {α : Type} (f : Contents → α) : Statement α :=
  return f (← get)

/-- The category with the given number. -/
def category (id : Id) : Statement Category := do
  match (← get).category? id with
  | some category => return category
  | none => throw (.notFound .category id)

/-- The field with the given number. -/
def field (id : Id) : Statement Field := do
  match (← get).field? id with
  | some field => return field
  | none => throw (.notFound .field id)

/-- Stores a category and answers its number. The number zero asks for a new one, and the time of
creation of a stored category does not change. -/
def putCategory (category : Category) : Statement Id := do
  let c ← get
  let row :=
    if category.id = 0 then { category with id := c.categories.nextKey }
    else match c.category? category.id with
      | some old => { category with timecreated := old.timecreated }
      | none => category
  set { c with categories := c.categories.put row }
  return row.id

/-- Stores a field in an existing category and answers its number. The number zero asks for a new
one, and the time of creation of a stored field does not change. -/
def putField (field : Field) : Statement Id := do
  let c ← get
  let row :=
    if field.id = 0 then { field with id := c.fields.nextKey }
    else match c.field? field.id with
      | some old => { field with timecreated := old.timecreated }
      | none => field
  if c.hasCategory row.categoryid then
    set { c with fields := c.fields.put row }
    return row.id
  else throw .danglingReference

/-- Moves a row to a position and stamps it with the time. The answer tells whether it exists. -/
def setSortorder (kind : Kind) (id : Id) (sortorder now : Int) : Statement Bool := do
  let c ← get
  match kind with
  | .category =>
    let move (row : Category) : Category := { row with sortorder, timemodified := now }
    set { c with categories := c.categories.modify id move fun _ => rfl }
    return (c.category? id).isSome
  | .field =>
    let move (row : Field) : Field := { row with sortorder, timemodified := now }
    set { c with fields := c.fields.modify id move fun _ => rfl }
    return (c.field? id).isSome

/-- Moves a field to another existing category without touching its position. The answer tells
whether the field exists. -/
def setCategory (id categoryid : Id) (now : Int) : Statement Bool := do
  let c ← get
  match c.field? id with
  | none => return false
  | some _ =>
    if c.hasCategory categoryid then
      let move (row : Field) : Field := { row with categoryid, timemodified := now }
      set { c with fields := c.fields.modify id move fun _ => rfl }
      return true
    else throw .danglingReference

/-- Deletes a row. The answer tells whether it existed; a category must not have fields left. -/
def delete (kind : Kind) (id : Id) : Statement Bool := do
  let c ← get
  match kind with
  | .category =>
    match c.category? id with
    | none => return false
    | some _ =>
      if c.fields.rows.any fun row => row.categoryid == id then throw .danglingReference
      else
        set { c with categories := c.categories.erase id }
        return true
  | .field =>
    set { c with fields := c.fields.erase id }
    return (c.field? id).isSome

/-- Deletes the fields of a category and answers how many there were. -/
def deleteFieldsOf (categoryid : Id) : Statement Nat := do
  let c ← get
  set { c with fields := c.fields.eraseWhere fun row => row.categoryid == categoryid }
  return c.count (.fields categoryid)

end Statement

end FieldCatalog
