import FieldCatalog.Record.Area

/-!
# Failures

## Main definitions

* `Failure`: the ways an operation on a catalog can fail
* `Failure.message`: their wording
* `Failure.isTransient`: the failures after which the same operation may succeed
-/

namespace FieldCatalog

/-- Why an operation failed. -/
inductive Failure
  | config (text : String)
  | persistence (text : String)
  | notFound (kind : Kind) (id : Id)
  | invalidScope (text : String)
  | invalidTarget (id target : Id)
  | concurrentModification (text : String)
  | partialWrite (kind : Kind) (id : Id)
  | unknownFieldType (tag : String)
  | invalidField (text : String)
  | lock (text : String)
deriving DecidableEq, Repr, Inhabited

namespace Failure

/-- The wording of a failure. -/
def message : Failure → String
  | config text => "Config error: " ++ text
  | persistence text => "Persistence error: " ++ text
  | notFound kind id => "No " ++ kind.display ++ " with id " ++ toString id
  | invalidScope text => "Invalid scope: " ++ text
  | invalidTarget id target =>
    "Invalid target: " ++ toString target ++ " is not in the same scope as " ++ toString id
  | concurrentModification text => "Concurrent modification: " ++ text
  | partialWrite kind id =>
    "Partial write failure: " ++ kind.display ++ " " ++ toString id ++ " could not be repositioned"
  | unknownFieldType tag => "Unknown field type: " ++ tag
  | invalidField text => "Invalid field: " ++ text
  | lock text => "Lock poisoned: " ++ text

/-- Whether running the whole operation again may succeed. -/
def isTransient : Failure → Bool
  | concurrentModification _ | partialWrite _ _ => true
  | _ => false

/-- A row refers to a category that does not exist, or rows still refer to a deleted category. -/
def danglingReference : Failure := persistence "FOREIGN KEY constraint failed"

/-- Another connection holds the write lock. -/
def databaseLocked : Failure := concurrentModification "database is locked"

/-- The store is in use by the very operation that asks for it. -/
def storeBusy : Failure := concurrentModification "timed out waiting for the store lock"

end Failure

end FieldCatalog
