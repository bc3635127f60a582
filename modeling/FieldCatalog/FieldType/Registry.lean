import FieldCatalog.FieldType.Builtin
import FieldCatalog.Json.Printer

/-!
# The registry of field types

Tags are short lower-case identifiers. The registry keeps its types in ascending order of their
tags, refuses a tag that is taken, and prepares the configuration of a field for storage.

## Main definitions

* `Registry`: field types in order of their tags
* `Registry.register`: one more type
* `Registry.resolve`: the type of a tag
* `Registry.prepare`: the text of a configuration that the type of a tag accepts
-/

namespace FieldCatalog

/-- A tag is a lower-case letter followed by lower-case letters, digits and underscores. -/
def isTag : List Char → Bool
  | [] => false
  | c :: cs => c.isLower && cs.all fun c => c.isLower || c.isDigit || c == '_'

/-- Field types in ascending order of their tags. -/
structure Registry (σ : Type) where
  types : List (FieldType σ)

namespace Registry

variable {σ : Type}

/-- No types at all. -/
def empty : Registry σ := ⟨[]⟩

instance : Inhabited (Registry σ) := ⟨empty⟩

/-- The built-in types. -/
def builtin : Registry σ := ⟨FieldType.builtin σ⟩

/-- The tags in ascending order. -/
def tags (r : Registry σ) : List String :=
  r.types.map FieldType.tag

/-- The type of a tag, if there is one. -/
def find? (r : Registry σ) (tag : String) : Option (FieldType σ) :=
  r.types.find? fun type => type.tag == tag

/-- A type at its place among types in ascending order of their tags. -/
def insertByTag (type : FieldType σ) : List (FieldType σ) → List (FieldType σ)
  | [] => [type]
  | other :: rest =>
    if type.tag < other.tag then type :: other :: rest else other :: insertByTag type rest

/-- Adds a type under its tag, which must be well formed and free. -/
def register (r : Registry σ) (type : FieldType σ) : Except Failure (Registry σ) :=
  if !isTag type.tag.toList then
    .error (.config ("'" ++ type.tag ++ "' is not a valid field type tag"))
  else if (r.find? type.tag).isSome then
    .error (.config ("field type '" ++ type.tag ++ "' is already registered"))
  else .ok ⟨insertByTag type r.types⟩

/-- The type of a tag. -/
def resolve (r : Registry σ) (tag : String) : Except Failure (FieldType σ) :=
  match r.find? tag with
  | some type => .ok type
  | none => .error (.unknownFieldType tag)

/-- Lets the type of a tag check a configuration and answers the text to store. A missing
configuration is the empty object. -/
def prepare (r : Registry σ) (tag : String) (configdata : Option Json) : Check σ String := do
  let type ← FieldType.answer (r.resolve tag)
  match configdata.getD (.object []) with
  | .object members =>
    type.check members
    return (Json.object members).render
  | _ => throw (FieldType.invalid tag "configdata must be a JSON object")

end Registry

end FieldCatalog
