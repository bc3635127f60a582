import FieldCatalog.Failure
import FieldCatalog.Json.Basic

/-!
# Field types

A field type is known by a tag and decides which configuration objects its fields may have. Most
types look at the configuration alone; in general a type may keep a state of its own from check to
check and may ask for the size of a listing while it checks.

## Main definitions

* `Outlook`: what a type may ask about the catalog
* `Check`: a check with the state of the types
* `FieldType`: tag and check
* `FieldType.ofRule`: a type that looks at the configuration alone
-/

namespace FieldCatalog

/-- What a field type may ask about the catalog while it checks a configuration. -/
structure Outlook where
  count : Scope → Except Failure Nat

/-- A check by field types whose states form the type `σ`. -/
abbrev Check (σ α : Type) := ReaderT Outlook (ExceptT Failure (StateM σ)) α

/-- A kind of custom field: its tag, and which configuration objects it accepts. -/
structure FieldType (σ : Type) where
  tag : String
  check : Json.Members → Check σ Unit

/-- A rule on the configuration object alone. -/
abbrev Rule := Json.Members → Except Failure Unit

namespace FieldType

variable {σ : Type}

/-- The answer of a rule, as a check that leaves the state as it is. -/
def answer {α : Type} (result : Except Failure α) : Check σ α :=
  fun _ state => (result, state)

/-- The field type that follows a rule. -/
def ofRule (tag : String) (rule : Rule) : FieldType σ where
  tag := tag
  check := fun configdata => answer (rule configdata)

/-- A configuration is refused by the type of the given tag. -/
def invalid (tag message : String) : Failure :=
  .invalidField (tag ++ ": " ++ message)

/-- The text under a name; null counts as absent. -/
def optionalString (tag name : String) (configdata : Json.Members) :
    Except Failure (Option String) :=
  match configdata.lookup name with
  | none | some .null => .ok none
  | some (.string s) => .ok (some s)
  | some _ => .error (invalid tag ("'" ++ name ++ "' must be a string"))

/-- The natural number under a name; null counts as absent. -/
def optionalNatural (tag name : String) (configdata : Json.Members) :
    Except Failure (Option Nat) :=
  match configdata.lookup name with
  | none | some .null => .ok none
  | some json =>
    match json.natural? with
    | some n => .ok (some n)
    | none => .error (invalid tag ("'" ++ name ++ "' must be a non-negative integer"))

end FieldType

end FieldCatalog
