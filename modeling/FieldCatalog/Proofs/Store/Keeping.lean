import FieldCatalog.Listing.Resequence
import FieldCatalog.Proofs.Store.Running

/-!
# Statements that keep a property

A statement keeps a property of the contents when the property survives it, whether it succeeds or
fails on the way. Sequences keep what their parts keep, so it is enough to look at single rows. What
is kept here is that the configuration of every field is fit for the type of the field: no statement
but one that puts a field can bring a type and a configuration together.

## Main definitions

* `Statement.Keeps`: a property that survives a statement
* `Contents.Configured`: the configuration of every field is fit for its type

## Main results

* `Statement.Keeps.bind`: sequences
* `Statement.keeps_putField`: the one statement that needs to know about configurations
* `Listing.keeps_append` and its siblings: putting entries in order
-/

namespace FieldCatalog

namespace Contents

variable {Fit : String → String → Prop} {c c' : Contents}

/-- The configuration of every field is fit for the type of the field. -/
def Configured (Fit : String → String → Prop) (c : Contents) : Prop :=
  ∀ row ∈ c.fields, Fit row.type row.configdata

theorem configured_empty : Contents.empty.Configured Fit := fun _ hrow => by cases hrow

/-- Fields that have been there before under their type and configuration are still configured. -/
theorem Configured.of_forall (hc : c.Configured Fit)
    (h : ∀ row ∈ c'.fields, ∃ old ∈ c.fields, old.type = row.type ∧
      old.configdata = row.configdata) : c'.Configured Fit := by
  intro row hrow
  obtain ⟨old, hold, htype, hconfigdata⟩ := h row hrow
  have hfit := hc old hold
  rw [htype, hconfigdata] at hfit
  exact hfit

theorem Configured.modify (hc : c.Configured Fit) (id : Id) {f : Field → Field}
    {keeps : ∀ row, (f row).id = row.id}
    (h : ∀ row, (f row).type = row.type ∧ (f row).configdata = row.configdata) :
    Configured Fit { c with fields := c.fields.modify id f keeps } := by
  refine hc.of_forall fun row hrow => ?_
  have hmem : row ∈ c.fields.modify id f keeps := hrow
  rcases Table.mem_modify.mp hmem with ⟨hmem, -⟩ | ⟨old, hold, -, rfl⟩
  · exact ⟨row, hmem, rfl, rfl⟩
  · exact ⟨old, hold, (h old).1.symm, (h old).2.symm⟩

theorem Configured.eraseWhere (hc : c.Configured Fit) (p : Field → Bool) :
    Configured Fit { c with fields := c.fields.eraseWhere p } :=
  fun row hrow => hc row (Table.mem_eraseWhere.mp hrow).1

/-- Storing a field leaves its type and its configuration alone. -/
theorem Configured.put (hc : c.Configured Fit) {row : Field} (hrow : Fit row.type row.configdata) :
    Configured Fit { c with fields := c.fields.put (c.storedField row) } := by
  have hstored : Fit (c.storedField row).type (c.storedField row).configdata := by
    unfold storedField
    split
    · exact hrow
    · split <;> exact hrow
  intro other hother
  rcases Table.mem_put.mp hother with rfl | ⟨hmem, -⟩
  · exact hstored
  · exact hc other hmem

end Contents

namespace Statement

open Contents

variable {α β : Type} {P : Contents → Prop} {Fit : String → String → Prop}

/-- A property of the contents survives a statement, whether it succeeds or fails. -/
def Keeps (P : Contents → Prop) (s : Statement α) : Prop :=
  ∀ c, P c → P (s.on c).2

/-! ## Sequences -/

theorem Keeps.pure (a : α) : Keeps P (Pure.pure a : Statement α) := fun _ hc => hc

theorem Keeps.throw (e : Failure) : Keeps P (MonadExcept.throw e : Statement α) := fun _ hc => hc

theorem Keeps.get : Keeps P (MonadState.get : Statement Contents) := fun _ hc => hc

theorem keeps_query (f : Contents → α) : Keeps P (query f) := fun _ hc => hc

theorem keeps_ofResult (result : Except Failure α) : Keeps P (ofResult result) := fun _ hc => hc

theorem Keeps.bind {s : Statement α} {f : α → Statement β} (hs : Keeps P s)
    (hf : ∀ a, Keeps P (f a)) : Keeps P (s >>= f) := by
  intro c hc
  have hfirst := hs c hc
  rw [on_bind]
  generalize s.on c = run at hfirst ⊢
  obtain ⟨_ | a, c'⟩ := run
  · exact hfirst
  · exact hf a c' hfirst

theorem keeps_category (id : Id) : Keeps P (category id) := by
  refine .bind .get fun c => ?_
  split
  · exact .pure _
  · exact .throw _

theorem keeps_field (id : Id) : Keeps P (field id) := by
  refine .bind .get fun c => ?_
  split
  · exact .pure _
  · exact .throw _

/-! ## Single rows -/

theorem keeps_putCategory (row : Category) : Keeps (Configured Fit) (putCategory row) :=
  fun _ hc => hc

/-- A field that is put must have a configuration that is fit for its type. -/
theorem keeps_putField {row : Field} (hrow : Fit row.type row.configdata) :
    Keeps (Configured Fit) (putField row) := by
  intro c hc
  rw [on_putField]
  split
  · exact hc.put hrow
  · exact hc

theorem keeps_setSortorder (kind : Kind) (id : Id) (sortorder now : Int) :
    Keeps (Configured Fit) (setSortorder kind id sortorder now) := by
  intro c hc
  cases kind with
  | category => exact hc
  | field => exact hc.modify id fun row => ⟨rfl, rfl⟩

theorem keeps_setCategory (id categoryid : Id) (now : Int) :
    Keeps (Configured Fit) (setCategory id categoryid now) := by
  intro c hc
  rw [on_setCategory]
  split
  · exact hc
  · split
    · exact hc.modify id fun row => ⟨rfl, rfl⟩
    · exact hc

theorem keeps_delete (kind : Kind) (id : Id) : Keeps (Configured Fit) (delete kind id) := by
  intro c hc
  cases kind with
  | category =>
    rw [on_delete_category]
    split
    · exact hc
    · split
      · exact hc
      · exact hc
  | field => exact hc.eraseWhere _

theorem keeps_deleteFieldsOf (categoryid : Id) :
    Keeps (Configured Fit) (deleteFieldsOf categoryid) :=
  fun _ hc => hc.eraseWhere _

end Statement

/-! ## Putting entries in order -/

namespace Listing

open Statement Contents

variable {Fit : String → String → Prop} (now : Int) (scope : Scope) (id : Id)

theorem keeps_place (kind : Kind) (sortorder : Int) :
    Keeps (Configured Fit) (place now kind id sortorder) := by
  refine .bind (keeps_setSortorder kind id sortorder now) fun found => ?_
  split
  · exact .pure _
  · exact .throw _

theorem keeps_writeRanksFrom (kind : Kind) (rank : Int) (members : List Member) :
    Keeps (Configured Fit) (writeRanksFrom now kind rank members) := by
  -- Induction on the entries, for all ranks.
  induction members generalizing rank with
  | nil => exact .pure _
  | cons m rest ih =>
    unfold writeRanksFrom
    split
    · exact ih (rank + 1)
    · exact .bind (keeps_place now m.id kind rank) fun _ => .bind (ih (rank + 1)) fun _ => .pure _

theorem keeps_writeRanks (kind : Kind) (members : List Member) :
    Keeps (Configured Fit) (writeRanks now kind members) :=
  keeps_writeRanksFrom now kind 0 members

theorem keeps_heal (kind : Kind) (members : List Member) :
    Keeps (Configured Fit) (heal now kind members) := by
  unfold heal
  split
  · exact .pure _
  · exact .bind (keeps_writeRanks now kind members) fun _ => .pure _

theorem keeps_append : Keeps (Configured Fit) (append now scope id) :=
  .bind (keeps_query _) fun _ => .bind (keeps_heal now scope.kind _) fun _ =>
    .bind (keeps_place now id scope.kind _) fun _ => .pure _

theorem keeps_renumber : Keeps (Configured Fit) (renumber now scope) :=
  .bind (keeps_query _) fun _ => keeps_writeRanks now scope.kind _

theorem keeps_swapAdjacent (direction : Direction) :
    Keeps (Configured Fit) (swapAdjacent now scope id direction) := by
  refine .bind (keeps_query _) fun _ => .bind (keeps_heal now scope.kind _) fun members => ?_
  split
  · exact .throw _
  · split
    · exact .pure _
    · exact .bind (keeps_place now _ scope.kind _) fun _ =>
        .bind (keeps_place now _ scope.kind _) fun _ => .pure _

theorem keeps_moveBefore (before : Option Id) :
    Keeps (Configured Fit) (moveBefore now scope id before) := by
  refine .bind (keeps_query _) fun members => ?_
  split
  · split
    · exact .bind (keeps_writeRanks now scope.kind _) fun _ => .pure _
    · split
      · exact .bind (keeps_writeRanks now scope.kind _) fun _ => .pure _
      · exact .throw _
  · exact .throw _

theorem keeps_moveAcross (destination : Scope) (before : Option Id) :
    Keeps (Configured Fit) (moveAcross now scope destination id before) := by
  unfold moveAcross
  split
  · exact .throw _
  · next categoryid =>
    refine .bind (keeps_query _) fun members => ?_
    -- Whether there is a target or none, it goes on with the change of the category.
    have hcarry : Keeps (Configured Fit) (setCategory id categoryid now >>= fun moved =>
        if moved = true then
          moveBefore now (.fields categoryid) id (target before) >>= fun _ =>
            renumber now scope >>= fun _ => pure ()
        else throw (Failure.notFound Kind.field id)) := by
      refine .bind (keeps_setCategory id categoryid now) fun moved => ?_
      split
      · exact .bind (keeps_moveBefore now _ id _) fun _ =>
          .bind (keeps_renumber now scope) fun _ => .pure _
      · exact .throw _
    dsimp only
    split
    · split
      · exact .bind (.throw _) fun _ => hcarry
      · exact hcarry
    · exact hcarry

end Listing

end FieldCatalog
