import FieldCatalog.Proofs.Action.Roundtrip
import FieldCatalog.Proofs.Catalog.Editing
import FieldCatalog.Proofs.Store.Keeping

/-!
# Configurations stay fit for their types

A type and a configuration come together in two operations only, and both let the type prepare the
configuration: a new field is stored under the type that has prepared its configuration, and an update
lets the type of the stored field decide. All other operations leave types and configurations as they
are, and so does whatever fails.

## Main definitions

* `Call.Keeps`: a property of the contents that survives a call
* `Mutation.configdata?`: the configuration that an operation brings with it

## Main results

* `Mutation.keeps_configured`, `Action.keeps_configured`: fields stay configured
* `Catalog.updateField_of_prepare`: an update with a configuration that the type accepts
-/

namespace FieldCatalog

open Contents

variable {σ α β : Type} {P : Contents → Prop} {Fit : String → String → Prop}

/-! ## Statements -/

namespace Statement

variable (id : Id) (now : Int)

theorem keeps_addCategory (area : Area) (name : Option String) :
    Keeps (Configured Fit) (addCategory area name now) :=
  .bind (keeps_query _) fun _ => .bind (keeps_putCategory _) fun id =>
    .bind (Listing.keeps_append now _ id) fun _ => keeps_category id

theorem keeps_retitleCategory (name : String) :
    Keeps (Configured Fit) (retitleCategory id name now) :=
  .bind (keeps_category id) fun _ => .bind (keeps_putCategory _) fun _ => .pure _

theorem keeps_removeCategory : Keeps (Configured Fit) (removeCategory id now) := by
  refine .bind .get fun c => ?_
  split
  · exact .pure _
  · refine .bind (keeps_deleteFieldsOf id) fun _ => .bind (keeps_delete .category id) fun found => ?_
    split
    · exact .bind (Listing.keeps_renumber now _) fun _ => .pure _
    · exact .throw _

theorem keeps_ofCategory : Keeps P (Listing.ofCategory id) :=
  .bind (keeps_category id) fun _ => .pure _

theorem keeps_ofField : Keeps P (Listing.ofField id) :=
  .bind (keeps_field id) fun _ => .pure _

theorem keeps_shiftCategory (direction : Direction) :
    Keeps (Configured Fit) (shiftCategory id direction now) :=
  .bind (keeps_ofCategory id) fun scope => Listing.keeps_swapAdjacent now scope id direction

theorem keeps_repositionCategory (before : Option Id) :
    Keeps (Configured Fit) (repositionCategory id before now) := by
  refine .bind (keeps_ofCategory id) fun scope => ?_
  have hmove : Keeps (Configured Fit) (Listing.moveBefore now scope id before) :=
    Listing.keeps_moveBefore now scope id before
  split
  · exact hmove
  · refine .bind .get fun c => ?_
    split
    · exact .bind (.throw _) fun _ => hmove
    · exact .bind (keeps_ofResult _) fun _ => hmove

theorem keeps_check (scope : Scope) : Keeps P (Listing.check scope) := by
  unfold Listing.check
  split
  · exact keeps_ofResult _
  · refine .bind .get fun c => ?_
    split
    · exact .pure _
    · exact .throw _

theorem keeps_listingAreaOf (scope : Scope) : Keeps P (Listing.areaOf scope) := by
  unfold Listing.areaOf
  split
  · exact .pure _
  · exact .bind (keeps_category _) fun _ => .pure _

/-- A new field must have a configuration that is fit for its type. -/
theorem keeps_addField (categoryid : Id) {draft : Draft} {configdata : String}
    (hfit : Fit draft.type configdata) :
    Keeps (Configured Fit) (addField categoryid draft configdata now) := by
  refine .bind (keeps_check _) fun _ => .bind (keeps_listingAreaOf _) fun area =>
    .bind .get fun c => ?_
  have hput : Keeps (Configured Fit) (putField ⟨0, draft.shortname, draft.name, draft.type,
      draft.description, categoryid, -1, configdata, now, now⟩) :=
    keeps_putField hfit
  have hadd := hput.bind fun id => .bind (Listing.keeps_append now (.fields categoryid) id) fun _ =>
    keeps_field id
  dsimp only
  split
  · exact .bind (.throw _) fun _ => hadd
  · exact hadd

theorem keeps_removeField : Keeps (Configured Fit) (removeField id now) := by
  refine .bind .get fun c => ?_
  split
  · exact .pure _
  · exact .bind (keeps_delete .field id) fun _ =>
      .bind (Listing.keeps_renumber now _) fun _ => .pure _

theorem keeps_shiftField (direction : Direction) :
    Keeps (Configured Fit) (shiftField id direction now) :=
  .bind (keeps_ofField id) fun scope => Listing.keeps_swapAdjacent now scope id direction

theorem keeps_targetScope (before : Option Id) : Keeps P (targetScope id before) := by
  unfold targetScope
  split
  · exact .pure _
  · refine .bind .get fun c => ?_
    split
    · exact .throw _
    · exact .pure _

theorem keeps_carryField (source destination : Scope) (before : Option Id) :
    Keeps (Configured Fit) (carryField id source destination before now) := by
  unfold carryField
  split
  · exact Listing.keeps_moveBefore now source id before
  · refine .bind (keeps_check _) fun _ => .bind (keeps_listingAreaOf _) fun home =>
      .bind (keeps_listingAreaOf _) fun elsewhere => ?_
    split
    · exact Listing.keeps_moveAcross now source id destination before
    · exact .throw _

theorem keeps_repositionField (categoryid before : Option Id) :
    Keeps (Configured Fit) (repositionField id categoryid before now) := by
  refine .bind (keeps_ofField id) fun source => .bind (keeps_targetScope id before) fun target => ?_
  have hcarry : ∀ destination,
      Keeps (Configured Fit) (carryField id source destination before now) :=
    fun destination => keeps_carryField id now source destination before
  dsimp only
  split
  · exact .bind (keeps_ofResult _) fun _ => hcarry _
  · exact hcarry _

theorem keeps_renumberFields (categories : List Category) :
    Keeps (Configured Fit) (renumberFields now categories) := by
  induction categories with
  | nil => exact .pure _
  | cons row rest ih =>
    exact .bind (Listing.keeps_renumber now _) fun _ => .bind ih fun _ => .pure _

theorem keeps_renumberArea (area : Area) : Keeps (Configured Fit) (renumberArea area now) :=
  .bind (Listing.keeps_renumber now _) fun _ => .bind (keeps_query _) fun categories =>
    .bind (keeps_renumberFields now categories) fun _ => .pure _

end Statement

/-! ## Calls -/

namespace Call

variable {k : Circumstances σ}

/-- A property of the contents survives a call under given circumstances, whether it succeeds or
fails. -/
def Keeps (P : Contents → Prop) (k : Circumstances σ) (call : Call σ α) : Prop :=
  ∀ h, P h.contents → P (call.run k h).2.contents

theorem Keeps.pure (a : α) : Keeps P k (Pure.pure a : Call σ α) := fun _ hp => hp

theorem keeps_ofResult (result : Except Failure α) : Keeps P k (ofResult result) := fun _ hp => hp

theorem keeps_query (s : Statement α) : Keeps P k (query s) := fun _ hp => hp

/-- What comes second may rely on the success of what came first. -/
theorem Keeps.bind_of_ok {first : Call σ α} {next : α → Call σ β} (hfirst : Keeps P k first)
    (hnext : ∀ a h h', first.run k h = (.ok a, h') → Keeps P k (next a)) :
    Keeps P k (first >>= next) := by
  intro h hp
  have hkeeps := hfirst h hp
  rw [run_bind]
  rcases hrun : first.run k h with ⟨_ | a, h'⟩ <;> rw [hrun] at hkeeps
  · exact hkeeps
  · exact hnext a h h' hrun h' hkeeps

theorem Keeps.bind {first : Call σ α} {next : α → Call σ β} (hfirst : Keeps P k first)
    (hnext : ∀ a, Keeps P k (next a)) : Keeps P k (first >>= next) :=
  hfirst.bind_of_ok fun a _ _ _ => hnext a

/-- What fails is undone, so only a success of the transaction counts. -/
theorem keeps_mutateWith {body : Circumstances σ → Transaction σ α}
    (hbody : ∀ h a h', P h.contents → body k h = (.ok a, h') → P h'.contents) :
    Keeps P k (mutateWith body) := by
  intro h hp
  have htried : Transaction.Tried k.heldElsewhere (body k) h ((mutateWith body).run k h) :=
    Transaction.tried_retry (k.attempts - 1)
  rcases hrun : (mutateWith body).run k h with ⟨e | a, h'⟩ <;> rw [hrun] at htried
  · exact htried.1.symm ▸ hp
  · obtain ⟨-, types, hok⟩ := htried
    exact hbody { h with types } a h' hp hok

theorem keeps_mutate {body : Int → Statement α} (hbody : (body k.now).Keeps P) :
    Keeps P k (mutate body) := by
  refine keeps_mutateWith fun h a h' hp hrun => ?_
  have hkept := hbody h.contents hp
  rw [Transaction.ofStatement_eq_ok hrun] at hkept
  exact hkept

end Call

namespace Catalog

variable {k : Circumstances σ} {h : Holdings σ}

theorem keeps_prepare (tag : String) (configdata : Option Json) :
    Call.Keeps P k (prepare tag configdata) := fun _ hp => hp

/-- A new field has the configuration that its type has prepared. -/
theorem keeps_createField (categoryid : Id) (draft : Draft)
    (hfit : ∀ tag outlook state text state',
      k.registry.prepare tag draft.configdata outlook state = (.ok text, state') → Fit tag text) :
    Call.Keeps (Configured Fit) k (createField categoryid draft) := by
  refine (Call.keeps_ofResult _).bind_of_ok fun proper h h' hproper => ?_
  -- A proper draft has the type and the configuration that were given.
  obtain ⟨-, name, -, rfl⟩ := exists_of_properDraft (Prod.mk.inj hproper).1
  refine (keeps_prepare _ _).bind_of_ok fun text h h' hprepare => ?_
  refine Call.keeps_mutate (Statement.keeps_addField _ _ ?_)
  -- The type is asked about the configuration outside of any transaction.
  have hasked : Transaction.ofCheck ⟨fun scope => .ok (h.contents.count scope)⟩
      (k.registry.prepare draft.type draft.configdata) h = (.ok text, h') := hprepare
  obtain ⟨hprepared, -⟩ := Transaction.ofCheck_eq_ok hasked
  exact hfit _ _ _ _ _ hprepared

/-- An updated field has the configuration that its type has prepared, or the one it had. -/
theorem keeps_updateField (id : Id) (amendment : Amendment)
    (hfit : ∀ tag outlook state text state',
      k.registry.prepare tag amendment.configdata outlook state = (.ok text, state') →
        Fit tag text) :
    Call.Keeps (Configured Fit) k (updateField id amendment) := by
  have hamend : Call.Keeps (Configured Fit) k
      (Call.mutateWith fun c => amend c.registry id amendment c.now) := by
    refine Call.keeps_mutateWith fun h row h' hc hrun => ?_
    obtain ⟨old, hold, rfl, hcontents, hprepared⟩ := amend_eq_ok hrun
    rw [hcontents]
    refine hc.put ?_
    rcases hprepared with hnone | ⟨outlook, state, state', hprepare⟩
    · have hsame : (amendment.applied old k.now).configdata = old.configdata := by
        simp only [Amendment.applied, hnone, Option.map_none, Option.getD_none]
      rw [hsame]
      exact hc old (field?_eq_some_iff.mp hold).1
    · exact hfit _ _ _ _ _ hprepare
  unfold updateField
  split
  · exact (Call.keeps_ofResult _).bind fun _ => hamend
  · exact hamend

/-- An update with nothing but a configuration that the type of the field accepts. -/
theorem updateField_of_prepare {id : Id} {old : Field} {json : Json} {text : String}
    (hc : h.contents.Referential) (hheld : k.heldElsewhere = false)
    (hold : h.contents.field? id = some old)
    (hprepare : ∀ outlook state,
      k.registry.prepare old.type (some json) outlook state = (.ok text, state)) :
    (updateField id ⟨none, none, some json⟩).run k h =
      (.ok { old with configdata := text, timemodified := k.now },
        { h with contents := h.contents.withField (h.contents.storedField
            { old with configdata := text, timemodified := k.now }) }) := by
  refine Call.run_mutateWith_of_ok hheld ?_
  have hhome := hc.hasCategory hold
  have hput := on_putField_of_hasCategory { old with configdata := text, timemodified := k.now } hhome
  simp only [amend, Transaction.bind_apply, Transaction.ofStatement, Statement.on_field, hold,
    amendedConfigdata, Transaction.ofCheck, hprepare, Option.map_none, Option.getD_none,
    hput]
  rfl

/-! ## Operations and actions -/

section Operations

variable (area : Area) (id : Id)

theorem keeps_createCategory (name : Option String) :
    Call.Keeps (Configured Fit) k (createCategory area name) :=
  (Call.keeps_ofResult _).bind fun _ =>
    Call.keeps_mutate (Statement.keeps_addCategory k.now area name)

theorem keeps_renameCategory (name : String) :
    Call.Keeps (Configured Fit) k (renameCategory id name) :=
  (Call.keeps_ofResult _).bind fun name =>
    Call.keeps_mutate (Statement.keeps_retitleCategory id k.now name)

theorem keeps_deleteCategory : Call.Keeps (Configured Fit) k (deleteCategory id) :=
  Call.keeps_mutate (Statement.keeps_removeCategory id k.now)

theorem keeps_moveCategory (direction : Direction) :
    Call.Keeps (Configured Fit) k (moveCategory id direction) :=
  Call.keeps_mutate (Statement.keeps_shiftCategory id k.now direction)

theorem keeps_dragCategory (before : Option Id) :
    Call.Keeps (Configured Fit) k (dragCategory id before) :=
  Call.keeps_mutate (Statement.keeps_repositionCategory id k.now _)

theorem keeps_deleteField : Call.Keeps (Configured Fit) k (deleteField id) :=
  Call.keeps_mutate (Statement.keeps_removeField id k.now)

theorem keeps_moveField (direction : Direction) :
    Call.Keeps (Configured Fit) k (moveField id direction) :=
  Call.keeps_mutate (Statement.keeps_shiftField id k.now direction)

theorem keeps_dragField (categoryid before : Option Id) :
    Call.Keeps (Configured Fit) k (dragField id categoryid before) :=
  Call.keeps_mutate (Statement.keeps_repositionField id k.now categoryid _)

theorem keeps_reorder : Call.Keeps (Configured Fit) k (reorder area) :=
  (Call.keeps_ofResult _).bind fun _ =>
    Call.keeps_mutate (Statement.keeps_renumberArea k.now area)

theorem keeps_areaOf (kind : Kind) : Call.Keeps P k (areaOf kind id) := Call.keeps_query _

end Operations

end Catalog

/-- The configuration that an operation brings with it. -/
def Mutation.configdata? : Mutation → Option Json
  | .createField _ draft => draft.configdata
  | .updateField _ amendment => amendment.configdata
  | _ => none

section Operations

variable {k : Circumstances σ}

open Catalog in
/-- Fields stay configured if what the types prepare of the configuration of an operation is fit. -/
theorem Mutation.keeps_configured (m : Mutation)
    (hfit : ∀ tag outlook state text state',
      k.registry.prepare tag m.configdata? outlook state = (.ok text, state') → Fit tag text) :
    Call.Keeps (Configured Fit) k m.perform := by
  cases m with
  | createCategory area name => exact (keeps_createCategory area name).bind fun _ => .pure _
  | renameCategory id name => exact (keeps_renameCategory id name).bind fun _ => .pure _
  | deleteCategory id => exact (keeps_deleteCategory id).bind fun _ => .pure _
  | moveCategory id direction => exact (keeps_moveCategory id direction).bind fun _ => .pure _
  | dragCategory id before => exact (keeps_dragCategory id before).bind fun _ => .pure _
  | createField categoryid draft =>
    exact (keeps_createField categoryid draft hfit).bind fun _ => .pure _
  | updateField id amendment => exact (keeps_updateField id amendment hfit).bind fun _ => .pure _
  | deleteField id => exact (keeps_deleteField id).bind fun _ => .pure _
  | moveField id direction => exact (keeps_moveField id direction).bind fun _ => .pure _
  | dragField id categoryid before =>
    exact (keeps_dragField id categoryid before).bind fun _ => .pure _
  | moveFieldToCategory id categoryid =>
    exact (keeps_dragField id (some categoryid) none).bind fun _ => .pure _
  | reorder area => exact (keeps_reorder area).bind fun _ => .pure _

open Catalog in
/-- Around the operation of an action there are only reads. -/
theorem Action.keeps_configured (a : Action)
    (hfit : ∀ tag outlook state text state',
      k.registry.prepare tag a.configdata? outlook state = (.ok text, state') → Fit tag text) :
    Call.Keeps (Configured Fit) k a.execute := by
  have happly : Call.Keeps (Configured Fit) k a.apply := by
    cases a with
    | createCategory area name => exact (keeps_createCategory area name).bind fun _ => .pure _
    | renameCategory id name => exact (keeps_renameCategory id name).bind fun _ => .pure _
    | deleteCategory id =>
      exact (keeps_areaOf id _).bind fun _ => (keeps_deleteCategory id).bind fun _ => .pure _
    | createField categoryid draft =>
      exact (keeps_createField categoryid draft hfit).bind fun field =>
        (keeps_areaOf field.id _).bind fun _ => .pure _
    | deleteField id =>
      exact (keeps_areaOf id _).bind fun _ => (keeps_deleteField id).bind fun _ => .pure _
    | moveCategory id direction =>
      exact (keeps_moveCategory id direction).bind fun _ => (keeps_areaOf id _).bind fun _ => .pure _
    | moveField id direction =>
      exact (keeps_moveField id direction).bind fun _ => (keeps_areaOf id _).bind fun _ => .pure _
    | dragCategory id before =>
      exact (keeps_dragCategory id before).bind fun _ => (keeps_areaOf id _).bind fun _ => .pure _
    | dragField id categoryid before =>
      exact (keeps_dragField id categoryid before).bind fun _ =>
        (keeps_areaOf id _).bind fun _ => .pure _
  exact happly.bind fun _ => (Call.keeps_query _).bind fun _ => .pure _

end Operations

end FieldCatalog
