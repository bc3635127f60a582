import FieldCatalog.Text.Blank

/-!
# Names of new categories

A category that is created without a name is called "Other fields", with the first free number
behind it when that name is taken.

## Main definitions

* `Naming.candidate`: the names that are tried, in order
* `Naming.defaultName`: the first of them that is not taken
* `Naming.chosen`: the name a new category receives
-/

namespace FieldCatalog.Naming

/-- The names that are tried, in order. -/
def candidate (number : Nat) : String :=
  if number = 0 then "Other fields" else "Other fields " ++ toString number

/-- The first free candidate from `number` on. Once as many candidates have been found taken as
there are taken names, the next one is free. -/
def firstFree (taken : List String) (number : Nat) : Nat → String
  | 0 => candidate number
  | tries + 1 =>
    if taken.contains (candidate number) then firstFree taken (number + 1) tries
    else candidate number

/-- The first candidate that is not taken. -/
def defaultName (taken : List String) : String :=
  firstFree taken 0 taken.length

/-- The name of a new category: the requested one without the blanks around it, or a default one
when nothing is left of it. -/
def chosen (taken : List String) (name : Option String) : String :=
  match name.map Text.trim with
  | some name => if name.isEmpty then defaultName taken else name
  | none => defaultName taken

end FieldCatalog.Naming
