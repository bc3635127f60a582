import FieldCatalog.Store.Statement

/-!
# Keeping listings in order

Every operation here works out the whole order of a listing from what is stored and then writes
the ranks that differ from the stored positions, so that it mends whatever order it finds.

## Main definitions

* `Listing.writeRanks`: gives entries their ranks
* `Listing.append`: puts a new entry last
* `Listing.renumber`: closes gaps
* `Listing.swapAdjacent`: exchanges an entry with its neighbour
* `Listing.moveBefore`: puts an entry before another one of its listing
* `Listing.moveAcross`: moves a field to another category
-/

namespace FieldCatalog.Listing

open Statement

/-- Moves an entry that must exist to a position. -/
def place (now : Int) (kind : Kind) (id : Id) (sortorder : Int) : Statement Unit := do
  if ← setSortorder kind id sortorder now then return ()
  else throw (.partialWrite kind id)

/-- Gives entries positions that count up from `rank`, leaving those that are there already, and
answers how many were moved. -/
def writeRanksFrom (now : Int) (kind : Kind) (rank : Int) : List Member → Statement Nat
  | [] => return 0
  | m :: ms =>
    if m.sortorder = rank then writeRanksFrom now kind (rank + 1) ms
    else do
      place now kind m.id rank
      let written ← writeRanksFrom now kind (rank + 1) ms
      return written + 1

/-- Gives entries their ranks as positions, leaving those that are there already, and answers how
many were moved. -/
def writeRanks (now : Int) (kind : Kind) (members : List Member) : Statement Nat :=
  writeRanksFrom now kind 0 members

/-- The order of a listing with every entry at its rank, written if it was not so already. -/
def heal (now : Int) (kind : Kind) (members : List Member) : Statement (List Member) := do
  if isContiguous members then return members
  else
    let _ ← writeRanks now kind members
    return ranked members

/-- Puts a new entry last in its listing and answers its position. -/
def append (now : Int) (scope : Scope) (id : Id) : Statement Int := do
  let members ← query (·.list scope)
  let siblings ← heal now scope.kind (members.filter fun m => m.id != id)
  place now scope.kind id siblings.length
  return siblings.length

/-- Moves every entry of a listing to its rank and answers how many were moved. -/
def renumber (now : Int) (scope : Scope) : Statement Nat := do
  let members ← query (·.list scope)
  writeRanks now scope.kind members

/-- Exchanges an entry with its neighbour in the given direction. The answer is false, and nothing
but the ranks is written, when the entry is at that end already. -/
def swapAdjacent (now : Int) (scope : Scope) (id : Id) (direction : Direction) :
    Statement Bool := do
  let members ← query (·.list scope)
  let members ← heal now scope.kind members
  match members.findIdx? fun m => m.id == id with
  | none => throw (.notFound scope.kind id)
  | some index =>
    match neighbours? members index direction with
    | none => return false
    | some (this, other) =>
      place now scope.kind this.id other.sortorder
      place now scope.kind other.id this.sortorder
      return true

/-- Puts an entry immediately before another one of its listing, last without a target, and leaves
the order as it is when the target is the entry itself. -/
def moveBefore (now : Int) (scope : Scope) (id : Id) (before : Option Id) : Statement Unit := do
  let before := target before
  let members ← query (·.list scope)
  if members.any fun m => m.id == id then
    if before = some id then
      let _ ← writeRanks now scope.kind members
    else
      match reinsert members id before with
      | some order =>
        let _ ← writeRanks now scope.kind order
      | none => throw (.invalidTarget id (before.getD noTarget))
  else throw (.notFound scope.kind id)

/-- Moves a field into another category, before a target there or last, and renumbers both
categories. -/
def moveAcross (now : Int) (source destination : Scope) (id : Id) (before : Option Id) :
    Statement Unit := do
  match destination with
  | .categories _ =>
    throw (.invalidScope ("only fields can change scope, not " ++ destination.display))
  | .fields categoryid =>
    let before := target before
    let members ← query (·.list destination)
    -- A bad target is refused before anything is written.
    match before with
    | some target =>
      if !members.any fun m => m.id == target then throw (.invalidTarget id target)
    | none => pure ()
    if ← setCategory id categoryid now then
      moveBefore now destination id before
      let _ ← renumber now source
    else throw (.notFound .field id)

end FieldCatalog.Listing
