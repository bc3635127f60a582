import FieldCatalog.Action.Basic
import FieldCatalog.Catalog.Mutation

/-!
# Carrying out actions

An action is carried out on a catalog and answered with the refreshed configuration of the area it
touched, so that a screen can be drawn again without asking a second time.

## Main definitions

* `Action.apply`: the effect of an action, the entry it concerns and the area it touched
* `Action.execute`: the effect and the refreshed configuration
* `Reply`: the answer to a screen
* `Action.run`: an answer in any case
-/

namespace FieldCatalog

/-- What an action has led to: the entry it concerns, the area it touched, and the configuration
of that area afterwards. -/
structure Refresh where
  id : Option Id
  area : Area
  sections : List Section
deriving DecidableEq, Repr, Inhabited

/-- The answer to a screen. After a passing failure the screen may simply try again. -/
inductive Reply
  | refreshed (refresh : Refresh)
  | failed (error : String) (retry : Bool)
deriving DecidableEq, Repr, Inhabited

namespace Reply

/-- The answer to a failure. The wording of a passing failure is kept from the screen. -/
def ofFailure (e : Failure) : Reply :=
  if e.isTransient then failed "the list was changed by someone else, please try again" true
  else failed e.message false

/-- An answer as an object, without the members that do not apply. -/
def toJson : Reply → Json
  | refreshed r =>
    .ofList
      ((r.id.toList.map fun id => ("id", .integer id)) ++
        [("status", .string "ok"), ("area", r.area.toJson),
          ("categories", .array (r.sections.map Section.toJson))])
  | failed error retry =>
    .ofList
      ([("status", .string "error"), ("error", .string error)] ++
        if retry then [("retry", .bool true)] else [])

end Reply

namespace Action

variable {σ : Type}

/-- Carries out an action and answers the entry it concerns and the area it touched. The area of a
deleted entry is looked up while the entry is still there. -/
def apply : Action → Call σ (Option Id × Area)
  | .createCategory area name => do
    let category ← Catalog.createCategory area name
    return (some category.id, category.area)
  | .renameCategory id name => do
    let category ← Catalog.renameCategory id name
    return (some category.id, category.area)
  | .deleteCategory id => do
    let area ← Catalog.areaOf .category id
    let _ ← Catalog.deleteCategory id
    return (none, area)
  | .createField categoryid draft => do
    let field ← Catalog.createField categoryid draft
    return (some field.id, ← Catalog.areaOf .field field.id)
  | .deleteField id => do
    let area ← Catalog.areaOf .field id
    let _ ← Catalog.deleteField id
    return (none, area)
  | .moveCategory id direction => do
    let _ ← Catalog.moveCategory id direction
    return (some id, ← Catalog.areaOf .category id)
  | .moveField id direction => do
    let _ ← Catalog.moveField id direction
    return (some id, ← Catalog.areaOf .field id)
  | .dragCategory id before => do
    Catalog.dragCategory id before
    return (some id, ← Catalog.areaOf .category id)
  | .dragField id categoryid before => do
    Catalog.dragField id categoryid before
    return (some id, ← Catalog.areaOf .field id)

/-- Carries out an action and refreshes the configuration of the area it touched. -/
def execute (a : Action) : Call σ Refresh := do
  let (id, area) ← a.apply
  let sections ← Catalog.configuration area
  return { id, area, sections }

/-- Carries out an action and answers in any case. -/
def run (a : Action) (c : Circumstances σ) (h : Holdings σ) : Reply × Holdings σ :=
  match a.execute.run c h with
  | (.ok refresh, h) => (.refreshed refresh, h)
  | (.error e, h) => (.ofFailure e, h)

end Action

end FieldCatalog
