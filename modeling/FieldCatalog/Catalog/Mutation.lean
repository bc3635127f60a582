import FieldCatalog.Catalog.Field

/-!
# Mutations

## Main definitions

* `Mutation`: the operations that change a catalog, with their arguments
* `Outcome`: what they answer
* `Mutation.perform`: the call that an operation is
* `Catalog.areaOf`: the area an entry belongs to
-/

namespace FieldCatalog

/-- An operation that changes a catalog. -/
inductive Mutation
  | createCategory (area : Area) (name : Option String)
  | renameCategory (id : Id) (name : String)
  | deleteCategory (id : Id)
  | moveCategory (id : Id) (direction : Direction)
  | dragCategory (id : Id) (before : Option Id)
  | createField (categoryid : Id) (draft : Draft)
  | updateField (id : Id) (amendment : Amendment)
  | deleteField (id : Id)
  | moveField (id : Id) (direction : Direction)
  | dragField (id : Id) (categoryid before : Option Id)
  | moveFieldToCategory (id categoryid : Id)
  | reorder (area : Area)
deriving Repr, Inhabited

/-- What an operation answers. -/
inductive Outcome
  | done
  | flag (b : Bool)
  | number (n : Nat)
  | category (c : Category)
  | field (f : Field)
deriving DecidableEq, Repr, Inhabited

variable {σ : Type}

/-- The call that an operation is. -/
def Mutation.perform : Mutation → Call σ Outcome
  | .createCategory area name => return .category (← Catalog.createCategory area name)
  | .renameCategory id name => return .category (← Catalog.renameCategory id name)
  | .deleteCategory id => return .flag (← Catalog.deleteCategory id)
  | .moveCategory id direction => return .flag (← Catalog.moveCategory id direction)
  | .dragCategory id before => do
    Catalog.dragCategory id before
    return .done
  | .createField categoryid draft => return .field (← Catalog.createField categoryid draft)
  | .updateField id amendment => return .field (← Catalog.updateField id amendment)
  | .deleteField id => return .flag (← Catalog.deleteField id)
  | .moveField id direction => return .flag (← Catalog.moveField id direction)
  | .dragField id categoryid before => do
    Catalog.dragField id categoryid before
    return .done
  | .moveFieldToCategory id categoryid => do
    Catalog.moveFieldToCategory id categoryid
    return .done
  | .reorder area => return .number (← Catalog.reorder area)

/-- The area that a category, or the category of a field, belongs to. -/
def Statement.areaOf (kind : Kind) (id : Id) : Statement Area := do
  match kind with
  | .category => Listing.areaOf (← Listing.ofCategory id)
  | .field => Listing.areaOf (← Listing.ofField id)

/-- The area that a category, or the category of a field, belongs to. -/
def Catalog.areaOf (kind : Kind) (id : Id) : Call σ Area :=
  Call.query (Statement.areaOf kind id)

/-- The categories of an area with their fields, everything in display order. -/
def Catalog.configuration (area : Area) : Call σ (List Section) :=
  Call.query (Statement.query (·.configuration area))

end FieldCatalog
