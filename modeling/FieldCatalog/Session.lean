import FieldCatalog.Action.Execute

/-!
# Sessions

A session is a catalog over time: operations and actions on it, the write lock that another
connection may take and give up in between, and closing and opening the store again.

## Main definitions

* `Storage`: where the rows are kept
* `Session`: an open catalog
* `Session.start`: a catalog with given rows and additional field types
* `Session.step`: what one event does to a session
* `Session.run`: what a list of events does to it
-/

namespace FieldCatalog

/-- Where the rows are kept: in memory, for as long as the store is open, or in a file. -/
inductive Storage
  | memory
  | file
deriving DecidableEq, Repr, Inhabited

/-- An open catalog: its field types, how often a change is tried, where the rows are kept, whether
another connection holds the write lock, and what lasts from call to call. -/
structure Session (σ : Type) where
  registry : Registry σ
  attempts : Nat
  storage : Storage
  heldElsewhere : Bool
  holdings : Holdings σ

/-- Stores rows one after another. -/
def Statement.seed (categories : List Category) (fields : List Field) : Statement Unit := do
  categories.forM fun category => discardId (putCategory category)
  fields.forM fun field => discardId (putField field)
where
  /-- A statement whose answer does not matter. -/
  discardId (s : Statement Id) : Statement Unit := do
    let _ ← s

/-- The registry with several more types, added one after another. -/
def Registry.registerAll {σ : Type} (r : Registry σ) :
    List (FieldType σ) → Except Failure (Registry σ)
  | [] => .ok r
  | type :: rest => do
    let r ← r.register type
    r.registerAll rest

namespace Session

variable {σ : Type}

/-- A catalog with given rows and with further types beside the built-in ones. -/
def start (storage : Storage) (attempts : Nat) (seed : Statement Unit) (types : List (FieldType σ))
    (memory : σ) : Except Failure (Session σ) := do
  let (result, contents) := seed.on .empty
  result
  let registry ← Registry.builtin.registerAll types
  .ok { registry, attempts, storage, heldElsewhere := false,
        holdings := { contents, types := memory } }

/-- The circumstances of a call at a given time. -/
def circumstances (s : Session σ) (now : Int) : Circumstances σ where
  registry := s.registry
  attempts := s.attempts
  heldElsewhere := s.heldElsewhere
  now := now

/-- Makes a call at a given time. -/
def call {α : Type} (s : Session σ) (now : Int) (c : Call σ α) : Except Failure α × Session σ :=
  let (result, holdings) := c.run (s.circumstances now) s.holdings
  (result, { s with holdings })

/-- What can happen to a session. -/
inductive Event (σ : Type)
  | perform (m : Mutation)
  | act (a : Action)
  | holdLock
  | releaseLock
  | reopen
  | retune (change : σ → σ)

/-- What an event is answered with. -/
inductive Answer
  | outcome (result : Except Failure Outcome)
  | reply (r : Reply)
  | done

/-- What one event at a given time does to a session. Only a file can be locked by another
connection, and only its rows outlast the store; what the field types remember always does. -/
def step (s : Session σ) (now : Int) : Event σ → Answer × Session σ
  | .perform m =>
    let (result, s) := s.call now m.perform
    (.outcome result, s)
  | .act a =>
    let (reply, holdings) := a.run (s.circumstances now) s.holdings
    (.reply reply, { s with holdings })
  | .holdLock => (.done, { s with heldElsewhere := s.storage = .file })
  | .releaseLock => (.done, { s with heldElsewhere := false })
  | .reopen =>
    match s.storage with
    | .memory => (.done, { s with holdings := { s.holdings with contents := .empty } })
    | .file => (.done, s)
  | .retune change =>
    (.done, { s with holdings := { s.holdings with types := change s.holdings.types } })

/-- What events, each with its time, make of a session. -/
def run (s : Session σ) (events : List (Int × Event σ)) : Session σ :=
  events.foldl (fun s event => (s.step event.1 event.2).2) s

@[simp]
theorem run_cons (s : Session σ) (event : Int × Event σ) (events : List (Int × Event σ)) :
    s.run (event :: events) = (s.step event.1 event.2).2.run events := rfl

theorem run_append (s : Session σ) (events more : List (Int × Event σ)) :
    s.run (events ++ more) = (s.run events).run more :=
  List.foldl_append

end Session

end FieldCatalog
