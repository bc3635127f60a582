import FieldCatalog.FieldType.Basic
import FieldCatalog.Text.Line

/-!
# The built-in field types

## Main definitions

* `Rule.text`, `Rule.textarea`, `Rule.select`, `Rule.checkbox`, `Rule.date`: what each accepts
* `Select.options`: the options that a configuration of a select field offers
* `FieldType.builtin`: the five types in order of their tags
-/

namespace FieldCatalog

open FieldType

/-- The options of a select field are kept one per line, as they were entered. -/
def Select.options (configdata : Json.Members) : List String :=
  match configdata.lookup "options" with
  | some (.string s) => (Text.entries s.toList).map String.ofList
  | _ => []

namespace Rule

/-- A number that is absent or lies between one and a bound. -/
def within (name : String) (bound : Nat) (n : Option Nat) : Except Failure Unit :=
  match n with
  | some n =>
    if 1 ≤ n ∧ n ≤ bound then .ok ()
    else .error (invalid "text" ("'" ++ name ++ "' must be between 1 and " ++ toString bound))
  | none => .ok ()

/-- A line of text: a display size up to 200, a length up to 1333, and a default value that is not
longer than the length. -/
def text : Rule := fun configdata => do
  let displaysize ← optionalNatural "text" "displaysize" configdata
  let maxlength ← optionalNatural "text" "maxlength" configdata
  within "displaysize" 200 displaysize
  within "maxlength" 1333 maxlength
  match ← optionalString "text" "defaultvalue" configdata, maxlength with
  | some value, some bound =>
    if bound < value.length then
      .error (invalid "text" "'defaultvalue' is longer than 'maxlength'")
    else .ok ()
  | _, _ => .ok ()

/-- A longer text: any default value. -/
def textarea : Rule := fun configdata => do
  let _ ← optionalString "textarea" "defaultvalue" configdata
  .ok ()

/-- A choice: at least one option, and a default value that is empty or one of the options. -/
def select : Rule := fun configdata => do
  let _ ← optionalString "select" "options" configdata
  let options := Select.options configdata
  if options.isEmpty then .error (invalid "select" "at least one option is required")
  else
    match ← optionalString "select" "defaultvalue" configdata with
    | some value =>
      if value.isEmpty || options.contains value then .ok ()
      else .error (invalid "select" "'defaultvalue' must be one of the options")
    | none => .ok ()

/-- A check mark: a default that is a truth value, zero or one. -/
def checkbox : Rule := fun configdata =>
  match configdata.lookup "checkbydefault" with
  | none | some .null | some (.bool _) | some (.integer 0) | some (.integer 1) => .ok ()
  | some _ => .error (invalid "checkbox" "'checkbydefault' must be a boolean")

/-- The first second of the earliest year a date can lie in. -/
def earliestDate : Int := -8334601228800

/-- The last second of the latest year a date can lie in. -/
def latestDate : Int := 8210266876799

/-- A bound on dates: absent, or a time stamp within the years a date can lie in. -/
def dateBound (name : String) (configdata : Json.Members) : Except Failure (Option Int) :=
  match configdata.lookup name with
  | none | some .null => .ok none
  | some json =>
    match json.signed? with
    | none => .error (invalid "date" ("'" ++ name ++ "' must be a timestamp"))
    | some stamp =>
      if earliestDate ≤ stamp ∧ stamp ≤ latestDate then .ok (some stamp)
      else .error (invalid "date" ("'" ++ name ++ "' is out of range"))

/-- A date: two optional bounds in order. -/
def date : Rule := fun configdata => do
  match ← dateBound "mindate" configdata, ← dateBound "maxdate" configdata with
  | some min, some max =>
    if max < min then .error (invalid "date" "'mindate' is after 'maxdate'") else .ok ()
  | _, _ => .ok ()

end Rule

/-- The five built-in types in order of their tags. -/
def FieldType.builtin (σ : Type) : List (FieldType σ) :=
  [.ofRule "checkbox" Rule.checkbox, .ofRule "date" Rule.date, .ofRule "select" Rule.select,
    .ofRule "text" Rule.text, .ofRule "textarea" Rule.textarea]

end FieldCatalog
