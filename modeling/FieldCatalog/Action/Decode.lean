import FieldCatalog.Action.Basic
import FieldCatalog.Json.Parser

/-!
# Reading actions

An action is read from an object that holds its tag and its arguments, in any order and among
further members, or from a list of the tag and the arguments in their order. A reader of text
reads the tag as soon as it comes to it: an unknown or repeated tag is refused on the spot, while
the arguments are looked at once the whole object has been read.

## Main definitions

* `Action.ofArguments`: the action of a tag and its arguments by name
* `Action.ofItems`: the action of a tag and its arguments in order
* `Action.ofJson`: an action from a value
* `Action.read`: an action off the front of a text
* `Action.parse`: an action that is a whole text
-/

namespace FieldCatalog.Action

open Json (Fault Members Reader)

/-! ## Arguments -/

/-- The value of a member, none if it is missing. A name that occurs twice is refused. -/
def once (members : Members) (name : String) : Except Fault (Option Json) :=
  match members.filter fun member => member.1 == name with
  | [] => .ok none
  | [(_, json)] => .ok (some json)
  | _ :: _ :: _ => .error .mismatch

/-- A value that must be of some kind. -/
def demand {α : Type} (value : Option α) : Except Fault α :=
  match value with
  | some a => .ok a
  | none => .error .mismatch

/-- A member that must be there. -/
def required {α : Type} (read : Json → Option α) (members : Members) (name : String) :
    Except Fault α := do
  let json ← demand (← once members name)
  demand (read json)

/-- A member that may be missing or null. -/
def optional {α : Type} (read : Json → Option α) (members : Members) (name : String) :
    Except Fault (Option α) := do
  match ← once members name with
  | none | some .null => .ok none
  | some json => .ok (some (← demand (read json)))

/-- A text that is empty when it is missing. -/
def textOrEmpty (members : Members) (name : String) : Except Fault String := do
  match ← once members name with
  | none => .ok ""
  | some json => demand json.string?

/-- The direction of a name. -/
def directionOfName? (name : String) : Option Direction :=
  if name = "up" then some .up else if name = "down" then some .down else none

/-- A direction is its name, or an object with that name alone and nothing under it. -/
def direction? : Json → Option Direction
  | .string name => directionOfName? name
  | .object [(name, .null)] | .object [(name, .object [])] => directionOfName? name
  | _ => none

/-- The area that members describe. -/
def areaOf (members : Members) : Except Fault Area := do
  let component ← required Json.string? members "component"
  let area ← required Json.string? members "area"
  let itemid ← required Json.signed? members "itemid"
  .ok { component, area, itemid }

/-- The draft of a field that members describe. -/
def draftOf (members : Members) : Except Fault Draft := do
  let shortname ← required Json.string? members "shortname"
  let name ← required Json.string? members "name"
  let type ← required Json.string? members "type"
  let description ← textOrEmpty members "description"
  let configdata ← optional (fun json => some json.settle) members "configdata"
  .ok { shortname, name, type, description, configdata }

/-- The action of a tag and the members that hold its arguments; other members do not matter. -/
def ofArguments (members : Members) : Tag → Except Fault Action
  | .createCategory => do
    .ok (.createCategory (← areaOf members) (← optional Json.string? members "name"))
  | .renameCategory => do
    .ok (.renameCategory (← required Json.signed? members "id")
      (← required Json.string? members "name"))
  | .deleteCategory => do
    .ok (.deleteCategory (← required Json.signed? members "id"))
  | .createField => do
    .ok (.createField (← required Json.signed? members "categoryid") (← draftOf members))
  | .deleteField => do
    .ok (.deleteField (← required Json.signed? members "id"))
  | .moveCategory => do
    .ok (.moveCategory (← required Json.signed? members "id")
      (← required direction? members "direction"))
  | .moveField => do
    .ok (.moveField (← required Json.signed? members "id")
      (← required direction? members "direction"))
  | .dragCategory => do
    .ok (.dragCategory (← required Json.signed? members "id")
      (← optional Json.signed? members "before"))
  | .dragField => do
    .ok (.dragField (← required Json.signed? members "id")
      (← optional Json.signed? members "categoryid") (← optional Json.signed? members "before"))

/-- The names of the arguments in their order, for the actions that may be written as a list. -/
def Tag.order? : Tag → Option (List String)
  | .createCategory | .createField => none
  | .renameCategory => some ["id", "name"]
  | .deleteCategory | .deleteField => some ["id"]
  | .moveCategory | .moveField => some ["id", "direction"]
  | .dragCategory => some ["id", "before"]
  | .dragField => some ["id", "categoryid", "before"]

/-- The action of a tag and its arguments in order. The last ones may be missing where a member may
be missing, and there must not be too many. -/
def ofItems (items : List Json) (tag : Tag) : Except Fault Action := do
  let names ← demand tag.order?
  if names.length < items.length then .error .mismatch
  else ofArguments (names.zip items) tag

/-! ## Values -/

/-- The tag that a value names. -/
def tagOf (json : Json) : Except Fault Tag :=
  demand (json.string?.bind Tag.ofName?)

/-- An action from a value. -/
def ofJson : Json → Except Fault Action
  | .object members => do
    let json ← demand (← once members "action")
    ofArguments members (← tagOf json)
  | .array (json :: items) => do
    ofItems items (← tagOf json)
  | _ => .error .mismatch

/-! ## Texts -/

/-- The tag at the front of a text. A container is refused at its opening bracket. -/
def readTag : Reader Tag := fun cs =>
  match Json.skipSpace cs with
  | '[' :: _ | '\x7b' :: _ => .error .mismatch
  | cs => do
    let (json, rest) ← Json.scalar cs
    .ok (← tagOf json, rest)

/-- What has been read of an action: its tag, and the other members or items, the latest first. -/
structure Gathered (α : Type) where
  tag : Option Tag
  others : List α

/-- One more member of an action. -/
def memberStep (seen : Gathered (String × Json)) : Reader (Gathered (String × Json)) := fun cs => do
  let (name, rest) ← Json.memberName cs
  if name = "action" then
    -- A second tag is refused at its name, whatever its value.
    if seen.tag.isSome then .error .mismatch
    else
      let (tag, rest) ← readTag (← Json.colon rest)
      .ok ({ seen with tag := some tag }, rest)
  else
    let (json, rest) ← Json.value (Json.nestingLimit - 1) (← Json.colon rest)
    .ok ({ seen with others := (name, json) :: seen.others }, rest)

/-- One more item of an action, of which the first is the tag. -/
def itemStep (seen : Gathered Json) : Reader (Gathered Json) := fun cs => do
  if seen.tag.isSome then
    let (json, rest) ← Json.value (Json.nestingLimit - 1) cs
    .ok ({ seen with others := json :: seen.others }, rest)
  else
    let (tag, rest) ← readTag cs
    .ok ({ seen with tag := some tag }, rest)

/-- An action off the front of a text. -/
def read : Reader Action := fun cs =>
  match Json.skipSpace cs with
  | '\x7b' :: rest => do
    let (seen, rest) ← Json.sequence '\x7d' memberStep ⟨none, []⟩ rest
    .ok (← ofArguments seen.others.reverse (← demand seen.tag), rest)
  | '[' :: rest => do
    let (seen, rest) ← Json.sequence ']' itemStep ⟨none, []⟩ rest
    .ok (← ofItems seen.others.reverse (← demand seen.tag), rest)
  | cs => do
    -- A broken scalar is broken text; a sound one is still no action.
    let _ ← Json.scalar cs
    .error .mismatch

/-- An action that is a whole text. -/
def parse (text : String) : Except Fault Action := do
  let (action, rest) ← read text.toList
  Json.endOfText rest
  .ok action

end FieldCatalog.Action
