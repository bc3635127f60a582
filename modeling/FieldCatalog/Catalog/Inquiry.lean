import FieldCatalog.Catalog.Mutation

/-!
# Inquiries

## Main definitions

* `Inquiry`: the operations that only read a catalog, with their arguments
* `Finding`: what they answer
* `Inquiry.perform`: the call that an inquiry is
-/

namespace FieldCatalog

/-- An operation that only reads a catalog. -/
inductive Inquiry
  | category (id : Id)
  | field (id : Id)
  | categories (area : Area)
  | fields (categoryid : Id)
  | list (scope : Scope)
  | count (scope : Scope)
  | configuration (area : Area)
  | areaOf (kind : Kind) (id : Id)
deriving DecidableEq, Repr

/-- What an inquiry answers. -/
inductive Finding
  | category (c : Category)
  | field (f : Field)
  | categories (cs : List Category)
  | fields (fs : List Field)
  | members (ms : List Member)
  | count (n : Nat)
  | sections (ss : List Section)
  | area (a : Area)
deriving DecidableEq, Repr, Inhabited

/-- The call that an inquiry is. -/
def Inquiry.perform {σ : Type} : Inquiry → Call σ Finding
  | .category id => return .category (← Call.query (Statement.category id))
  | .field id => return .field (← Call.query (Statement.field id))
  | .categories area => return .categories (← Call.query (Statement.query (·.categoriesOf area)))
  | .fields categoryid => return .fields (← Call.query (Statement.query (·.fieldsOf categoryid)))
  | .list scope => return .members (← Call.query (Statement.query (·.list scope)))
  | .count scope => return .count (← Call.query (Statement.query (·.count scope)))
  | .configuration area => return .sections (← Catalog.configuration area)
  | .areaOf kind id => return .area (← Catalog.areaOf kind id)

end FieldCatalog
