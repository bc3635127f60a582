import FieldCatalog.FieldType.Basic

/-!
# Field types for trying out a catalog

These types accept almost everything and exist to bring a catalog into situations that the
built-in types cannot: a check that fails for a while, and a check that looks at the catalog that
is being changed.

## Main definitions

* `Probe`: how often the types have checked, and the failures still to come
* `Probe.flaky`, `Probe.reentrant`, `Probe.colour`, `Probe.lenient`: the types
-/

namespace FieldCatalog

/-- What the probing types remember: the number of checks so far, and a failure with the number of
checks that are still to fail with it. -/
structure Probe where
  calls : Nat
  failures : Nat
  failure : Failure
deriving DecidableEq, Repr, Inhabited

namespace Probe

/-- No check so far and none to fail. -/
def idle : Probe := ⟨0, 0, .config ""⟩

/-- The next `failures` checks are to fail. -/
def arm (p : Probe) (failures : Nat) (failure : Failure) : Probe :=
  { p with failures, failure }

/-- Accepts everything, once the failures it is armed with are used up. -/
def flaky : FieldType Probe where
  tag := "flaky"
  check := fun _ _ p =>
    match p.failures with
    | 0 => (.ok (), { p with calls := p.calls + 1 })
    | left + 1 => (.error p.failure, { p with calls := p.calls + 1, failures := left })

/-- Accepts everything, unless the fields of category 1 cannot be counted. -/
def reentrant : FieldType Probe where
  tag := "reentrant"
  check := fun _ outlook p =>
    ((outlook.count (.fields 1)).map fun _ => (), { p with calls := p.calls + 1 })

/-- Accepts a configuration whose palette is absent or a list. -/
def colour : FieldType Probe :=
  .ofRule "colour" fun configdata =>
    match configdata.lookup "palette" with
    | none | some (.array _) => .ok ()
    | some _ => .error (.invalidField "palette must be a list")

/-- Accepts everything. -/
def lenient (tag : String) : FieldType Probe :=
  .ofRule tag fun _ => .ok ()

/-- The probing type of a tag. -/
def ofTag (tag : String) : FieldType Probe :=
  if tag = "flaky" then flaky
  else if tag = "reentrant" then reentrant
  else if tag = "colour" then colour
  else lenient tag

end Probe

end FieldCatalog
