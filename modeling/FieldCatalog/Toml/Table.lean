import FieldCatalog.Decimal.Binary64

/-!
# TOML tables

A document is put together from headers and pairs. A table can be written in four ways, and what may
be added to it later depends on the way: nothing to a table within braces, pairs once under its own
header, further dotted keys to a table made by dotted keys.

## Main definitions

* `Toml`: the values
* `Toml.Origin`: how a table came about
* `Toml.openTable`, `Toml.openEntry`: what a header does to a document
* `Toml.addPair`: what a pair does to the table it stands under
-/

namespace FieldCatalog

/-- How a table came about: within braces, under its own header, as a step of the key of another
header, or as a step of a dotted key. -/
inductive Toml.Origin
  | braces
  | header
  | implied
  | dotted
deriving DecidableEq, Repr, Inhabited

/-- A TOML value. A moment is a date, a time or both, in its normal spelling; an array may be one
that headers append to. -/
inductive Toml
  | string (s : String)
  | integer (i : Int)
  | double (x : Binary64)
  | infinity (negative : Bool)
  | notANumber
  | boolean (b : Bool)
  | moment (text : String)
  | array (ofTables : Bool) (items : List Toml)
  | table (origin : Toml.Origin) (entries : List (String × Toml))
deriving Repr, Inhabited

namespace Toml

/-- The entries of a table in the order in which their keys first appear. -/
abbrev Entries := List (String × Toml)

/-- The entries with another value under a key. -/
def setEntry (key : String) (value : Toml) : Entries → Entries
  | [] => [(key, value)]
  | (other, old) :: rest =>
    if key = other then (key, value) :: rest else (other, old) :: setEntry key value rest

/-- Changes the entries of a table that a header may reach: any table but one within braces, and the
last table of an array of tables. -/
def underHeader (f : Entries → Option Entries) : Toml → Option Toml
  | .table .braces _ => none
  | .table origin entries => (f entries).map (.table origin)
  | .array true items =>
    match items.getLast? with
    | some (.table origin entries) =>
      (f entries).map fun entries => .array true (items.dropLast ++ [.table origin entries])
    | _ => none
  | _ => none

/-- Changes the entries of the table that the steps of a header lead to. Missing tables on the way
are made. -/
def alongHeader (f : Entries → Option Entries) : List String → Entries → Option Entries
  | [], entries => f entries
  | key :: path, entries => do
    let old := (entries.lookup key).getD (.table .implied [])
    let new ← underHeader (alongHeader f path) old
    some (setEntry key new entries)

/-- What the header of a table does to the table it lies in: a table that was only implied so far is
defined now, and one that is defined already cannot be defined again. -/
def openTable (key : String) (entries : Entries) : Option Entries :=
  match entries.lookup key with
  | none => some (setEntry key (.table .header []) entries)
  | some (.table .implied inner) => some (setEntry key (.table .header inner) entries)
  | some _ => none

/-- What the header of an array of tables does to the table it lies in: the array receives one more
table. -/
def openEntry (key : String) (entries : Entries) : Option Entries :=
  match entries.lookup key with
  | none => some (setEntry key (.array true [.table .header []]) entries)
  | some (.array true items) =>
    some (setEntry key (.array true (items ++ [.table .header []])) entries)
  | some _ => none

/-- Adds a pair, of which the key may be dotted, to the entries of a table. The steps of a dotted
key lead through tables that no header has defined, which no header may define any more after that,
and through the last tables of arrays of tables, in which a dotted key must not end. -/
def addPair (value : Toml) : List String → Entries → Option Entries
  | [], _ => none
  | [key], entries =>
    match entries.lookup key with
    | none => some (setEntry key value entries)
    | some _ => none
  | key :: next :: path, entries =>
    match entries.lookup key with
    | none => do
      let inner ← addPair value (next :: path) []
      some (setEntry key (.table .dotted inner) entries)
    | some (.table .dotted inner) | some (.table .implied inner) => do
      let inner ← addPair value (next :: path) inner
      some (setEntry key (.table .dotted inner) entries)
    | some (.array true items) =>
      if path.isEmpty then none
      else
        match items.getLast? with
        | some (.table origin inner) => do
          let inner ← addPair value (next :: path) inner
          some (setEntry key (.array true (items.dropLast ++ [.table origin inner])) entries)
        | _ => none
    | some _ => none

end Toml

end FieldCatalog
