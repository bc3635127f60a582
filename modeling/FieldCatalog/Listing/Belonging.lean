import FieldCatalog.Store.Statement
import FieldCatalog.Text.Blank

/-!
# Which listing an entry belongs to

## Main definitions

* `Area.check`: an area must be named and its item must not be negative
* `Scope.ensureSame`: a target must stand in the expected listing
* `Listing.ofCategory`, `Listing.ofField`: the listing of an existing entry
* `Listing.check`: a listing must exist
* `Listing.areaOf`: the area a listing belongs to
-/

namespace FieldCatalog

/-- An area has a component and an area name that are not blank, and no negative item. -/
def Area.check (a : Area) : Except Failure Unit :=
  if Text.allBlank a.component then .error (.invalidScope "component is empty")
  else if Text.allBlank a.area then .error (.invalidScope "area is empty")
  else if a.itemid < 0 then
    .error (.invalidScope ("itemid " ++ toString a.itemid ++ " is negative"))
  else .ok ()

/-- The target of `id` must stand in the expected listing. -/
def Scope.ensureSame (expected actual : Scope) (id target : Id) : Except Failure Unit :=
  if expected = actual then .ok () else .error (.invalidTarget id target)

namespace Listing

open Statement

/-- The listing in which a category stands. -/
def ofCategory (id : Id) : Statement Scope :=
  return (← category id).scope

/-- The listing in which a field stands. -/
def ofField (id : Id) : Statement Scope :=
  return (← field id).scope

/-- A listing exists when its area is well named or its category exists. -/
def check (scope : Scope) : Statement Unit := do
  match scope with
  | .categories area => ofResult area.check
  | .fields categoryid =>
    if (← get).hasCategory categoryid then return ()
    else throw (.invalidScope ("category " ++ toString categoryid ++ " does not exist"))

/-- The area that a listing belongs to. -/
def areaOf (scope : Scope) : Statement Area := do
  match scope with
  | .categories area => return area
  | .fields categoryid => return (← category categoryid).area

end Listing

end FieldCatalog
