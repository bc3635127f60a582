import FieldCatalog.Catalog.Naming
import FieldCatalog.Catalog.Transaction
import FieldCatalog.Listing.Belonging
import FieldCatalog.Listing.Resequence

/-!
# Operations on categories

Each operation is a statement on the contents, given the time, and a call that checks the arguments
and runs the statement in a transaction.

## Main definitions

* `Catalog.createCategory`, `Catalog.renameCategory`, `Catalog.deleteCategory`
* `Catalog.moveCategory`: one step up or down
* `Catalog.dragCategory`: before another category of the area, or last
-/

namespace FieldCatalog

namespace Statement

/-- Adds a category at the end of its area. -/
def addCategory (area : Area) (name : Option String) (now : Int) : Statement Category := do
  let taken ← query (·.categoryNames area)
  let id ← putCategory
    { id := 0, name := Naming.chosen taken name, description := "", area, sortorder := -1,
      timecreated := now, timemodified := now }
  let _ ← Listing.append now (.categories area) id
  category id

/-- Gives a category another name. -/
def retitleCategory (id : Id) (name : String) (now : Int) : Statement Category := do
  let old ← category id
  let renamed := { old with name, timemodified := now }
  let _ ← putCategory renamed
  return renamed

/-- Deletes a category with its fields and closes the gap. The answer tells whether it existed. -/
def removeCategory (id : Id) (now : Int) : Statement Bool := do
  match (← get).category? id with
  | none => return false
  | some category =>
    -- The fields go first, since a category with fields cannot be deleted.
    let _ ← deleteFieldsOf id
    if ← delete .category id then
      let _ ← Listing.renumber now category.scope
      return true
    else throw (.partialWrite .category id)

/-- Exchanges a category with its neighbour. -/
def shiftCategory (id : Id) (direction : Direction) (now : Int) : Statement Bool := do
  let scope ← Listing.ofCategory id
  Listing.swapAdjacent now scope id direction

/-- Puts a category before another one of its area, or last. A target that does not exist is a bad
target, not a missing category. -/
def repositionCategory (id : Id) (before : Option Id) (now : Int) : Statement Unit := do
  let scope ← Listing.ofCategory id
  match before with
  | none => pure ()
  | some target =>
    match (← get).category? target with
    | none => throw (.invalidTarget id target)
    | some category => ofResult (scope.ensureSame category.scope id target)
  Listing.moveBefore now scope id before

end Statement

namespace Catalog

variable {σ : Type}

/-- Creates a category at the end of its area, under a default name if it is given none. -/
def createCategory (area : Area) (name : Option String) : Call σ Category := do
  Call.ofResult area.check
  Call.mutate (Statement.addCategory area name)

/-- A name without the blanks around it, which must leave something. -/
def properName (what name : String) : Except Failure String :=
  let name := Text.trim name
  if name.isEmpty then .error (.invalidField (what ++ " name is empty")) else .ok name

/-- Renames a category. -/
def renameCategory (id : Id) (name : String) : Call σ Category := do
  let name ← Call.ofResult (properName "category" name)
  Call.mutate (Statement.retitleCategory id name)

/-- Deletes a category with its fields. The answer tells whether it existed. -/
def deleteCategory (id : Id) : Call σ Bool :=
  Call.mutate (Statement.removeCategory id)

/-- Moves a category one step up or down. The answer tells whether there was room. -/
def moveCategory (id : Id) (direction : Direction) : Call σ Bool :=
  Call.mutate (Statement.shiftCategory id direction)

/-- Puts a category before another one of its area, or last. -/
def dragCategory (id : Id) (before : Option Id) : Call σ Unit :=
  Call.mutate (Statement.repositionCategory id (Listing.target before))

end Catalog

end FieldCatalog
