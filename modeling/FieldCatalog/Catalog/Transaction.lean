import FieldCatalog.FieldType.Registry
import FieldCatalog.Store.Statement

/-!
# Transactions and calls

A call changes the contents in one transaction: an attempt that fails leaves the contents as they
were, and an attempt that fails for a passing reason is made again. Field types keep what they
remember even when an attempt fails.

## Main definitions

* `Holdings`: what lasts from call to call
* `Circumstances`: what is given to one call
* `Transaction`, `Call`: the two levels of work
* `Transaction.attempt`, `Transaction.retry`: undoing and trying again
* `Call.mutate`, `Call.query`: changes and reads
-/

namespace FieldCatalog

/-- What lasts from call to call: the contents, and what the field types remember. -/
structure Holdings (σ : Type) where
  contents : Contents
  types : σ

/-- What is given to one call: the field types, how often a change is tried at most, whether another
connection holds the write lock, and the time. -/
structure Circumstances (σ : Type) where
  registry : Registry σ
  attempts : Nat
  heldElsewhere : Bool
  now : Int

/-- Work on the holdings that may fail. -/
abbrev Transaction (σ α : Type) := ExceptT Failure (StateM (Holdings σ)) α

/-- Work on the holdings under given circumstances. -/
abbrev Call (σ α : Type) := ReaderT (Circumstances σ) (ExceptT Failure (StateM (Holdings σ))) α

namespace Transaction

variable {σ α : Type}

/-- A statement, run on the contents. -/
def ofStatement (s : Statement α) : Transaction σ α := fun h =>
  let (result, contents) := s.on h.contents
  (result, { h with contents })

/-- A check by the field types. -/
def ofCheck (outlook : Outlook) (check : Check σ α) : Transaction σ α := fun h =>
  let (result, types) := check outlook h.types
  (result, { h with types })

/-- One attempt: it fails at once while the write lock is held elsewhere, and when it fails the
contents are as before. -/
def attempt (heldElsewhere : Bool) (body : Transaction σ α) : Transaction σ α := fun h =>
  if heldElsewhere then (.error .databaseLocked, h)
  else match body h with
    | (.ok a, h') => (.ok a, h')
    -- What the field types remember is not part of the store and stays as it is.
    | (.error e, h') => (.error e, { h' with contents := h.contents })

/-- Repeats a transaction that fails for a passing reason, up to the given number of times. -/
def retry : Nat → Transaction σ α → Transaction σ α
  | 0, body => body
  | again + 1, body => fun h =>
    match body h with
    | (.ok a, h') => (.ok a, h')
    | (.error e, h') => if e.isTransient then retry again body h' else (.error e, h')

end Transaction

namespace Call

variable {σ α : Type}

/-- What a call answers and leaves behind. -/
def run (call : Call σ α) (c : Circumstances σ) (h : Holdings σ) : Except Failure α × Holdings σ :=
  call c h

/-- A check that looks at the arguments alone. -/
def ofResult (result : Except Failure α) : Call σ α := fun _ h =>
  (result, h)

/-- A read, which needs no transaction. -/
def query (s : Statement α) : Call σ α := fun _ h =>
  ((s.on h.contents).1, h)

/-- Runs a transaction, which is told the circumstances, until it succeeds, fails for good or has
been tried as often as allowed. It is tried at least once. -/
def mutateWith (body : Circumstances σ → Transaction σ α) : Call σ α := fun c =>
  Transaction.retry (c.attempts - 1) (Transaction.attempt c.heldElsewhere (body c))

/-- Runs a statement, which is told the time, as a transaction. -/
def mutate (body : Int → Statement α) : Call σ α :=
  mutateWith fun c => Transaction.ofStatement (body c.now)

end Call

end FieldCatalog
