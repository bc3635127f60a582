import FieldCatalog.Catalog.Transaction
import FieldCatalog.Proofs.Catalog.Guarantee

/-!
# What the calls guarantee

A call runs a statement in a transaction: an attempt that fails is undone, and the attempts before
the last one leave no trace but in what the field types remember. What a statement guarantees is
therefore guaranteed by its call, whoever holds the write lock and whatever types are registered.

## Main definitions

* `Transaction.Tried`: what several attempts at a transaction may lead to
* `Call.Ensures`: a postcondition, with failures that change nothing

## Main results

* `Transaction.tried_retry`: the attempts at a transaction
* `Call.run_mutate`: a call runs its statement once
* `Call.ensures_bind`: a first step that leaves the contents alone
* `Call.ensures_mutate`, `Call.ensures_mutateWith`: calls that change the contents
-/

namespace FieldCatalog

/-! ## Attempts -/

namespace Transaction

variable {σ α β : Type} {h : Holdings σ} {held : Bool} {body : Transaction σ α}

/-- What attempts at a transaction may lead to: a success of the body, run on the contents as they
were, or a failure after which the contents are as they were. -/
def Tried (held : Bool) (body : Transaction σ α) (h : Holdings σ) :
    Except Failure α × Holdings σ → Prop
  | (.ok a, h') => held = false ∧ ∃ types, body { h with types } = (.ok a, h')
  | (.error e, h') => h'.contents = h.contents ∧
      (held = false → ∃ types h'', body { h with types } = (.error e, h''))

theorem tried_attempt : Tried held body h (attempt held body h) := by
  -- A lock ends the attempt before the body runs, and a failing body has its contents undone.
  unfold attempt
  cases held with
  | true => exact ⟨rfl, fun h => by cases h⟩
  | false =>
    cases hbody : body h with
    | mk result h' =>
      cases result with
      | ok a => exact ⟨rfl, h.types, hbody⟩
      | error e => exact ⟨rfl, fun _ => ⟨h.types, h', hbody⟩⟩

/-- However often a transaction is tried, it is the last attempt that counts. -/
theorem tried_retry (again : Nat) : Tried held body h (retry again (attempt held body) h) := by
  -- Induction on the attempts that are left, for all holdings: between two attempts the field types
  -- may have changed what they remember.
  induction again generalizing h with
  | zero => exact tried_attempt
  | succ again ih =>
    have hfirst : Tried held body h (attempt held body h) := tried_attempt
    unfold retry
    cases hattempt : attempt held body h with
    | mk result h' =>
      rw [hattempt] at hfirst
      cases result with
      | ok a => exact hfirst
      | error e =>
        dsimp only
        split
        · -- The failed attempt has left the contents alone, so the next one finds them again.
          have hnext := ih (h := h')
          have hsame : ∀ types, ({ h' with types } : Holdings σ) = { h with types } := fun types =>
            congrArg (Holdings.mk · types) hfirst.1
          generalize retry again (attempt held body) h' = last at hnext ⊢
          obtain ⟨result, h''⟩ := last
          cases result with
          | ok a =>
            obtain ⟨hheld, types, hbody⟩ := hnext
            exact ⟨hheld, types, hsame types ▸ hbody⟩
          | error e =>
            refine ⟨hnext.1.trans hfirst.1, fun hheld => ?_⟩
            obtain ⟨types, h₃, hbody⟩ := hnext.2 hheld
            exact ⟨types, h₃, hsame types ▸ hbody⟩
        · exact hfirst

/-- A transaction that succeeds is not tried again. -/
theorem retry_of_ok (again : Nat) {a : α} {h' : Holdings σ} (hbody : body h = (.ok a, h')) :
    retry again body h = (.ok a, h') := by
  cases again with
  | zero => exact hbody
  | succ again => simp only [retry, hbody]

/-- A transaction that fails without a trace fails in the same way however often it is tried. -/
theorem retry_of_error (again : Nat) {e : Failure} (hbody : body h = (.error e, h)) :
    retry again body h = (.error e, h) := by
  -- Induction on the attempts: the next one finds everything as the last one did.
  induction again with
  | zero => exact hbody
  | succ again ih =>
    simp only [retry, hbody, ih]
    split <;> rfl

theorem bind_apply (first : Transaction σ α) (next : α → Transaction σ β) (h : Holdings σ) :
    (first >>= next) h = match first h with
      | (.ok a, h') => next a h'
      | (.error e, h') => (.error e, h') := by
  show ExceptT.bindCont next (first h).1 (first h).2 = _
  rcases first h with ⟨_ | _, _⟩ <;> rfl

/-- Statements run one after another in a transaction are one statement. -/
theorem ofStatement_bind (s : Statement α) (f : α → Statement β) :
    (ofStatement s >>= fun a => ofStatement (f a) : Transaction σ β) = ofStatement (s >>= f) := by
  funext h
  rw [bind_apply]
  simp only [ofStatement, Statement.on_bind]
  rcases s.on h.contents with ⟨_ | _, _⟩ <;> rfl

end Transaction

/-! ## Postconditions of calls -/

namespace Call

variable {σ α β : Type} {k : Circumstances σ} {h : Holdings σ} {post : α → Contents → Prop}

/-- A call runs its statement once, unless the write lock is held, and a failure leaves no trace. -/
theorem run_mutate (body : Int → Statement α) (k : Circumstances σ) (h : Holdings σ) :
    (mutate body).run k h =
      if k.heldElsewhere then (.error .databaseLocked, h)
      else match (body k.now).on h.contents with
        | (.ok a, c') => (.ok a, { h with contents := c' })
        | (.error e, _) => (.error e, h) := by
  show Transaction.retry (k.attempts - 1) _ h = _
  split
  · next hheld =>
    exact Transaction.retry_of_error _ (by simp only [Transaction.attempt, hheld, if_true])
  · next hheld =>
    cases hbody : (body k.now).on h.contents with
    | mk result c' =>
      cases result with
      | ok a =>
        refine Transaction.retry_of_ok _ ?_
        simp only [Transaction.attempt, Transaction.ofStatement, hheld, hbody]
        rfl
      | error e =>
        refine Transaction.retry_of_error _ ?_
        simp only [Transaction.attempt, Transaction.ofStatement, hheld, hbody]
        rfl

theorem run_mutate_of_ok {body : Int → Statement α} {a : α} {c' : Contents}
    (hheld : k.heldElsewhere = false) (hbody : (body k.now).on h.contents = (.ok a, c')) :
    (mutate body).run k h = (.ok a, { h with contents := c' }) := by
  simp only [run_mutate, hheld, hbody, Bool.false_eq_true, if_false]

theorem run_mutate_of_error {body : Int → Statement α} {e : Failure} {c' : Contents}
    (hheld : k.heldElsewhere = false) (hbody : (body k.now).on h.contents = (.error e, c')) :
    (mutate body).run k h = (.error e, h) := by
  simp only [run_mutate, hheld, hbody, Bool.false_eq_true, if_false]

theorem run_bind (call : Call σ α) (next : α → Call σ β) :
    (call >>= next).run k h = match call.run k h with
      | (.ok a, h') => (next a).run k h'
      | (.error e, h') => (.error e, h') :=
  Transaction.bind_apply (call k) (fun a => next a k) h

/-- A check of the arguments comes before the rest of a call. -/
theorem run_ofResult_bind (result : Except Failure α) (next : α → Call σ β) :
    (ofResult result >>= next).run k h = match result with
      | .ok a => (next a).run k h
      | .error e => (.error e, h) := by
  rw [run_bind]
  cases result <;> rfl

/-- A call either succeeds with an answer and contents of which a property holds, or fails and
changes nothing. While nobody else holds the write lock and the types are the built-in ones, it fails
with refusals only. -/
structure Ensures (call : Call σ α) (k : Circumstances σ) (h : Holdings σ)
    (post : α → Contents → Prop) : Prop where
  ok : ∀ a h', call.run k h = (.ok a, h') → post a h'.contents
  unchanged : ∀ e h', call.run k h = (.error e, h') → h'.contents = h.contents
  refusal : ∀ e h', call.run k h = (.error e, h') → k.heldElsewhere = false →
    k.registry = .builtin → e.isRefusal = true

theorem ensures_of_ok {call : Call σ α} {a : α} {h' : Holdings σ}
    (hrun : call.run k h = (.ok a, h')) (hpost : post a h'.contents) : call.Ensures k h post := by
  constructor <;> intro x h'' hx <;> rw [hrun] at hx <;> cases hx
  exact hpost

theorem ensures_of_error {call : Call σ α} {e : Failure} {h' : Holdings σ}
    (hrun : call.run k h = (.error e, h')) (hsame : h'.contents = h.contents)
    (he : k.heldElsewhere = false → k.registry = .builtin → e.isRefusal = true) :
    call.Ensures k h post := by
  constructor <;> intro x h'' hx <;> rw [hrun] at hx <;> cases hx
  · exact hsame
  · exact he

theorem Ensures.imp {call : Call σ α} {post' : α → Contents → Prop} (hcall : call.Ensures k h post)
    (himp : ∀ a c', post a c' → post' a c') : call.Ensures k h post' :=
  ⟨fun a h' hrun => himp a _ (hcall.ok a h' hrun), hcall.unchanged, hcall.refusal⟩

/-- The answer of a call, put into another form. -/
theorem Ensures.map {call : Call σ α} {f : α → β} {post' : β → Contents → Prop}
    (hcall : call.Ensures k h post) (himp : ∀ a c', post a c' → post' (f a) c') :
    Ensures (do let a ← call; return f a) k h post' := by
  cases hrun : call.run k h with
  | mk result h' =>
    cases result with
    | ok a =>
      have hmap : Call.run (do let a ← call; return f a) k h = (.ok (f a), h') := by
        rw [run_bind, hrun]
        rfl
      exact ensures_of_ok hmap (himp a _ (hcall.ok a h' hrun))
    | error e =>
      have hmap : Call.run (do let a ← call; return f a) k h = (.error e, h') := by
        rw [run_bind, hrun]
      exact ensures_of_error hmap (hcall.unchanged e h' hrun) (hcall.refusal e h' hrun)

/-- A first step that leaves the contents alone. -/
theorem ensures_bind {first : Call σ α} {next : α → Call σ β} {post : β → Contents → Prop}
    {result : Except Failure α} (types : σ) (hrun : first.run k h = (result, { h with types }))
    (hresult : k.registry = .builtin → Refuses result)
    (hnext : ∀ a, result = .ok a → (next a).Ensures k { h with types } post) :
    (first >>= next).Ensures k h post := by
  cases result with
  | ok a =>
    have hbind : (first >>= next).run k h = (next a).run k { h with types } := by
      rw [run_bind, hrun]
    obtain ⟨hok, hunchanged, hrefusal⟩ := hnext a rfl
    rw [← hbind] at hok hunchanged hrefusal
    exact ⟨hok, hunchanged, hrefusal⟩
  | error e =>
    have hbind : (first >>= next).run k h = (.error e, { h with types }) := by
      rw [run_bind, hrun]
    exact ensures_of_error hbind rfl fun _ hbuiltin => hresult hbuiltin e rfl

theorem ensures_ofResult_bind {result : Except Failure α} {next : α → Call σ β}
    {post : β → Contents → Prop} (hresult : Refuses result)
    (hnext : ∀ a, result = .ok a → (next a).Ensures k h post) :
    (ofResult result >>= next).Ensures k h post :=
  ensures_bind h.types rfl (fun _ => hresult) hnext

/-- A call guarantees what its transaction guarantees, whatever the types remember. -/
theorem ensures_mutateWith {body : Circumstances σ → Transaction σ α}
    (hok : ∀ types a h', body k { h with types } = (.ok a, h') → post a h'.contents)
    (herror : ∀ types e h', body k { h with types } = (.error e, h') →
      k.registry = .builtin → e.isRefusal = true) :
    (mutateWith body).Ensures k h post := by
  -- Each part of the postcondition is about the last attempt.
  have htried : Transaction.Tried k.heldElsewhere (body k) h ((mutateWith body).run k h) :=
    Transaction.tried_retry (k.attempts - 1)
  constructor <;> intro x h' hrun <;> rw [hrun] at htried
  · obtain ⟨-, types, hbody⟩ := htried
    exact hok types x h' hbody
  · exact htried.1
  · intro hheld hbuiltin
    obtain ⟨types, h'', hbody⟩ := htried.2 hheld
    exact herror types x h'' hbody hbuiltin

/-- A call guarantees what its statement guarantees. -/
theorem ensures_mutate {body : Int → Statement α} (hbody : (body k.now).Ensures h.contents post) :
    (mutate body).Ensures k h post := by
  unfold Statement.Ensures at hbody
  refine ensures_mutateWith (fun types a h' hrun => ?_) fun types e h' hrun _ => ?_
  all_goals
    simp only [Transaction.ofStatement] at hrun
    obtain ⟨hresult, hholdings⟩ := Prod.mk.inj hrun
    generalize (body k.now).on h.contents = run at hbody hresult hholdings
    obtain ⟨result, c'⟩ := run
    cases hresult
  · rw [← hholdings]
    exact hbody
  · exact hbody.1

end Call

end FieldCatalog
