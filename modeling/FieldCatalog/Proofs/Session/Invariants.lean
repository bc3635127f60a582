import FieldCatalog.Proofs.Catalog.Contiguity
import FieldCatalog.Proofs.Catalog.Validity
import FieldCatalog.Proofs.Session.Lasting

/-!
# Invariants of sessions

A session that begins with positive numbers keeps its listings contiguous and its rows valid, whatever
happens to it: operations and actions that succeed or fail, a lock held elsewhere, field types that
change their minds, and opening the store again.

## Main definitions

* `Session.sample`: a small session
* `Session.sampleEvents`: what happens to it

## Main results

* `Session.contiguous_run`: every listing keeps the positions `0, 1, ..., n - 1`
* `Session.valid_run`: short names stay unique in their areas, and names and areas well formed
-/

namespace FieldCatalog

namespace Contents

/-- Being contiguous lasts among positive numbers. -/
theorem lasting_contiguous : Lasting fun c => c.Positive ∧ c.Contiguous :=
  lasting_positive.and (fun scope => by cases scope <;> rfl)
    fun _ hp hc hchange => hchange.contiguous hp hc

/-- Being valid lasts among positive numbers. -/
theorem lasting_valid : Lasting fun c => c.Positive ∧ c.Valid :=
  lasting_positive.and (by decide) fun hr hp hc hchange => hchange.valid hr hp hc

end Contents

namespace Session

variable {σ : Type} {storage : Storage} {attempts : Nat} {categories : List Category}
  {fields : List Field} {types : List (FieldType σ)} {memory : σ} {s : Session σ}

/-- A session with the small catalog in a file. -/
def sample : Session Unit where
  registry := .builtin
  attempts := 3
  storage := .file
  heldElsewhere := false
  holdings := ⟨.sample, ()⟩

/-- Rearrangements, among them one that meets a lock held elsewhere, and a new start. -/
def sampleEvents : List (Int × Event Unit) :=
  [(6, .perform (.dragCategory 2 (some 1))), (7, .holdLock), (8, .act (.deleteCategory 1)),
    (9, .releaseLock), (10, .act (.dragField 1 (some 2) none)), (11, .reopen)]

theorem start_sample :
    start .file 3 (.seed Contents.sample.categories.rows Contents.sample.fields.rows) [] () =
      .ok sample :=
  rfl

/-- Every listing of a session keeps the positions `0, 1, ..., n - 1`. -/
theorem contiguous_run (hstart : start storage attempts (.seed categories fields) types memory = .ok s)
    (hcategories : ∀ row ∈ categories, 1 ≤ row.id) (hfields : ∀ row ∈ fields, 1 ≤ row.id)
    (hc : s.holdings.contents.Contiguous) (events : List (Int × Event σ)) :
    (s.run events).holdings.contents.Contiguous := by
  -- That numbers are positive is part of the invariant: zero would ask for a new row.
  have hr := referential_start hstart
  have hp := positive_start hstart hcategories hfields
  exact (run_keeps Contents.lasting_contiguous events hr ⟨hp, hc⟩).2

theorem contiguous_run_sample :
    sample.holdings.contents.Contiguous ∧ (sample.run sampleEvents).holdings.contents.Contiguous :=
  have hc : sample.holdings.contents.Contiguous := by decide
  ⟨hc, contiguous_run start_sample (by decide) (by decide) hc sampleEvents⟩

example : (sample.run sampleEvents).holdings.contents.list (.fields 2) = [⟨1, 0⟩] := by decide

/-- In every session short names stay unique in their areas, and names and areas well formed. -/
theorem valid_run (hstart : start storage attempts (.seed categories fields) types memory = .ok s)
    (hcategories : ∀ row ∈ categories, 1 ≤ row.id) (hfields : ∀ row ∈ fields, 1 ≤ row.id)
    (hc : s.holdings.contents.Valid) (events : List (Int × Event σ)) :
    (s.run events).holdings.contents.Valid := by
  have hr := referential_start hstart
  have hp := positive_start hstart hcategories hfields
  exact (run_keeps Contents.lasting_valid events hr ⟨hp, hc⟩).2

theorem valid_run_sample :
    sample.holdings.contents.Valid ∧ (sample.run sampleEvents).holdings.contents.Valid :=
  have hc : sample.holdings.contents.Valid := by decide
  ⟨hc, valid_run start_sample (by decide) (by decide) hc sampleEvents⟩

end Session

end FieldCatalog
