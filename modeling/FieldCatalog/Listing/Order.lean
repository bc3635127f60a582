import FieldCatalog.Record.Area

/-!
# Orders of members

The order of a listing is by position, entries at one position by their numbers. A listing in good
order has the positions `0, 1, ..., n - 1`.

## Main definitions

* `Member.Precedes`: the order of a listing
* `Listing.arrange`: rows in the order of their listing
* `Listing.isContiguous`: whether the positions are the ranks
* `Listing.ranked`: the same entries at their ranks
* `Listing.reinsert`: the order after one entry has been put before another
-/

namespace FieldCatalog

/-- The order of a listing: by position, then by number. -/
def Member.Precedes (a b : Member) : Prop :=
  a.sortorder < b.sortorder ∨ (a.sortorder = b.sortorder ∧ a.id < b.id)

instance (a b : Member) : Decidable (a.Precedes b) :=
  inferInstanceAs (Decidable (_ ∨ _))

namespace Listing

/-- A row at its place among rows that are in order. -/
def insertInOrder {α : Type} (member : α → Member) (row : α) : List α → List α
  | [] => [row]
  | other :: rest =>
    if (member other).Precedes (member row) then other :: insertInOrder member row rest
    else row :: other :: rest

/-- Rows in the order of their listing. -/
def arrange {α : Type} (member : α → Member) (rows : List α) : List α :=
  rows.foldr (insertInOrder member) []

/-- The spelling of "no target" in drag and drop requests, besides leaving the target out. -/
def noTarget : Id := 0

/-- The target of a drag, where both spellings of "no target" mean the end of the listing. -/
def target (before : Option Id) : Option Id :=
  before.filter fun id => id ≠ noTarget

/-- Whether the positions count up from `rank`. -/
def isContiguousFrom (rank : Int) : List Member → Bool
  | [] => true
  | m :: ms => m.sortorder == rank && isContiguousFrom (rank + 1) ms

/-- Whether the positions are exactly the ranks `0, 1, ..., n - 1`. -/
def isContiguous (members : List Member) : Bool :=
  isContiguousFrom 0 members

/-- The same entries at positions that count up from `rank`. -/
def rankedFrom (rank : Int) : List Member → List Member
  | [] => []
  | m :: ms => { m with sortorder := rank } :: rankedFrom (rank + 1) ms

/-- The same entries at their ranks. -/
def ranked (members : List Member) : List Member :=
  rankedFrom 0 members

/-- The order in which `id` has been taken out of `members` and put back immediately before
`before`, or last without a target. There is none when the target is not among the others. -/
def reinsert (members : List Member) (id : Id) (before : Option Id) : Option (List Member) :=
  let moving := (members.find? fun m => m.id == id).toList
  let others := members.filter fun m => m.id != id
  match before with
  | none => some (others ++ moving)
  | some target =>
    if others.any fun m => m.id == target then
      some (others.takeWhile (fun m => m.id != target) ++
        (moving ++ others.dropWhile fun m => m.id != target))
    else none

/-- An entry and its neighbour in the given direction, if it has one there. -/
def neighbours? (members : List Member) (index : Nat) (direction : Direction) :
    Option (Member × Member) :=
  match members[index]?, (index : Int) + direction.offset with
  | some this, .ofNat other => (members[other]?).map fun other => (this, other)
  | _, _ => none

/-- Normalising a target twice is normalising it once. -/
@[simp]
theorem target_target (before : Option Id) : target (target before) = target before := by
  cases before with
  | none => rfl
  | some id => by_cases h : id = noTarget <;> simp [target, Option.filter, h]

@[simp]
theorem length_rankedFrom (rank : Int) (members : List Member) :
    (rankedFrom rank members).length = members.length := by
  induction members generalizing rank with
  | nil => rfl
  | cons m ms ih => simp [rankedFrom, ih]

@[simp]
theorem isContiguousFrom_rankedFrom (rank : Int) (members : List Member) :
    isContiguousFrom rank (rankedFrom rank members) = true := by
  induction members generalizing rank with
  | nil => rfl
  | cons m ms ih => simp [rankedFrom, isContiguousFrom, ih]

/-- Members at their ranks are contiguous. -/
theorem isContiguous_ranked (members : List Member) : isContiguous (ranked members) = true :=
  isContiguousFrom_rankedFrom 0 members

end Listing

end FieldCatalog
