import FieldCatalog.Catalog.Category

/-!
# Operations on fields

## Main definitions

* `Catalog.createField`, `Catalog.updateField`, `Catalog.deleteField`
* `Catalog.moveField`: one step up or down
* `Catalog.dragField`: before another field, or last, in the same or another category of the area
* `Catalog.reorder`: renumbers an area and the fields of its categories
-/

namespace FieldCatalog

/-- A short name is made of lower-case letters, digits and underscores, and is not empty. -/
def isShortname (cs : List Char) : Bool :=
  !cs.isEmpty && cs.all fun c => c.isLower || c.isDigit || c == '_'

namespace Statement

/-- Adds a field at the end of a category. Its short name must be free in the whole area. -/
def addField (categoryid : Id) (draft : Draft) (configdata : String) (now : Int) :
    Statement Field := do
  let scope := Scope.fields categoryid
  Listing.check scope
  let area ← Listing.areaOf scope
  if ((← get).fieldByShortname area draft.shortname).isSome then
    throw (.invalidField
      ("shortname '" ++ draft.shortname ++ "' is already used in " ++ area.display))
  let id ← putField
    { id := 0, shortname := draft.shortname, name := draft.name, type := draft.type,
      description := draft.description, categoryid, sortorder := -1, configdata,
      timecreated := now, timemodified := now }
  let _ ← Listing.append now scope id
  field id

/-- Deletes a field and closes the gap. The answer tells whether it existed. -/
def removeField (id : Id) (now : Int) : Statement Bool := do
  match (← get).field? id with
  | none => return false
  | some field =>
    let _ ← delete .field id
    let _ ← Listing.renumber now field.scope
    return true

/-- Exchanges a field with its neighbour. -/
def shiftField (id : Id) (direction : Direction) (now : Int) : Statement Bool := do
  let scope ← Listing.ofField id
  Listing.swapAdjacent now scope id direction

/-- The listing of the field that a field is dragged before, which must exist. -/
def targetScope (id : Id) (before : Option Id) : Statement (Option Scope) := do
  match before with
  | none => return none
  | some target =>
    match (← get).field? target with
    | none => throw (.invalidTarget id target)
    | some field => return some field.scope

/-- Puts a field before another one of the destination, or last, if the destination is its own
listing or an existing one of the same area. -/
def carryField (id : Id) (source destination : Scope) (before : Option Id) (now : Int) :
    Statement Unit := do
  if destination = source then Listing.moveBefore now source id before
  else
    -- Both categories are looked up before anything is written.
    Listing.check destination
    let home ← Listing.areaOf source
    let elsewhere ← Listing.areaOf destination
    if home = elsewhere then Listing.moveAcross now source destination id before
    else throw (.invalidScope
      ("field " ++ toString id ++ " belongs to " ++ home.display ++ " and cannot move to " ++
        elsewhere.display))

/-- Puts a field before another one, or last. It goes to the category `categoryid` if that is given,
else to the category of the target if there is one, else it stays in its own; it never leaves its
area. -/
def repositionField (id : Id) (categoryid before : Option Id) (now : Int) : Statement Unit := do
  let source ← Listing.ofField id
  let target ← targetScope id before
  let destination := (categoryid.map Scope.fields <|> target).getD source
  match before, target with
  | some before, some scope => ofResult (destination.ensureSame scope id before)
  | _, _ => pure ()
  carryField id source destination before now

/-- Renumbers the fields of several categories and answers how many were moved. -/
def renumberFields (now : Int) : List Category → Statement Nat
  | [] => return 0
  | category :: rest => do
    let moved ← Listing.renumber now (.fields category.id)
    return moved + (← renumberFields now rest)

/-- Renumbers the categories of an area and the fields of each, and answers how many rows were
moved. -/
def renumberArea (area : Area) (now : Int) : Statement Nat := do
  let moved ← Listing.renumber now (.categories area)
  let categories ← query (·.categoriesOf area)
  return moved + (← renumberFields now categories)

end Statement

namespace Catalog

variable {σ : Type}

/-- A draft with short name and name trimmed; the short name must be well formed and the name must
not be blank. -/
def properDraft (draft : Draft) : Except Failure Draft := do
  let shortname := Text.trim draft.shortname
  if !isShortname shortname.toList then
    .error (.invalidField ("shortname '" ++ shortname ++
      "' may only contain lowercase letters, digits and underscores"))
  else
    let name ← properName "field" draft.name
    .ok { draft with shortname, name }

/-- Lets the type of a tag check a configuration while nothing else uses the store. -/
def prepare (tag : String) (configdata : Option Json) : Call σ String := fun c h =>
  let outlook : Outlook := ⟨fun scope => .ok (h.contents.count scope)⟩
  Transaction.ofCheck outlook (c.registry.prepare tag configdata) h

/-- Creates a field at the end of a category, after its short name, name, type and configuration
have been checked. -/
def createField (categoryid : Id) (draft : Draft) : Call σ Field := do
  let draft ← Call.ofResult (properDraft draft)
  let configdata ← prepare draft.type draft.configdata
  Call.mutate (Statement.addField categoryid draft configdata)

/-- The text of a new configuration for a stored field, or its old one. The check runs inside a
transaction, where the store cannot be asked. -/
def amendedConfigdata (registry : Registry σ) (field : Field) (configdata : Option Json) :
    Transaction σ String :=
  match configdata with
  | none => return field.configdata
  | some configdata =>
    Transaction.ofCheck ⟨fun _ => .error .storeBusy⟩ (registry.prepare field.type (some configdata))

/-- Changes the parts of a field that are given and answers the changed field. -/
def amend (registry : Registry σ) (id : Id) (amendment : Amendment) (now : Int) :
    Transaction σ Field := do
  let old ← Transaction.ofStatement (Statement.field id)
  let configdata ← amendedConfigdata registry old amendment.configdata
  let field : Field :=
    { old with
      name := (amendment.name.map Text.trim).getD old.name
      description := amendment.description.getD old.description
      configdata := configdata
      timemodified := now }
  let _ ← Transaction.ofStatement (Statement.putField field)
  return field

/-- Changes the name, the description or the configuration of a field. -/
def updateField (id : Id) (amendment : Amendment) : Call σ Field := do
  match amendment.name with
  | some name => let _ ← Call.ofResult (properName "field" name)
  | none => pure ()
  Call.mutateWith fun c => amend c.registry id amendment c.now

/-- Deletes a field. The answer tells whether it existed. -/
def deleteField (id : Id) : Call σ Bool :=
  Call.mutate (Statement.removeField id)

/-- Moves a field one step up or down within its category. The answer tells whether there was
room. -/
def moveField (id : Id) (direction : Direction) : Call σ Bool :=
  Call.mutate (Statement.shiftField id direction)

/-- Puts a field before another one, or last, in the same or another category of its area. -/
def dragField (id : Id) (categoryid before : Option Id) : Call σ Unit :=
  Call.mutate (Statement.repositionField id categoryid (Listing.target before))

/-- Moves a field to the end of a category. -/
def moveFieldToCategory (id categoryid : Id) : Call σ Unit :=
  dragField id (some categoryid) none

/-- Renumbers the categories of an area and the fields of each, and answers how many rows were
moved. -/
def reorder (area : Area) : Call σ Nat := do
  Call.ofResult area.check
  Call.mutate (Statement.renumberArea area)

end Catalog

end FieldCatalog
