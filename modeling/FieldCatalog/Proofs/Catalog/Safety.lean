import FieldCatalog.Catalog.Inquiry
import FieldCatalog.Proofs.Action.Answering

/-!
# Failures that cannot happen

A write may miss its row, a field may be put where there is no category, and a category may be
deleted while it has fields: for each of these there is a failure, and none of them is ever seen. In
contents where every field lies in an existing category, an operation that is not kept out by a lock
or by a type of its own fails with refusals only, and it leaves such contents behind.

## Main definitions

* `Call.Safe`: a call that fails with refusals only and leaves sound tables behind
* `Catalog.unkempt`: contents with gaps, and with numbers that are not positive

## Main results

* `Inquiry.ensures`: an inquiry changes nothing
* `Catalog.operations_safe`: every operation on a catalog is safe
-/

namespace FieldCatalog

namespace Call

variable {σ α : Type} {k : Circumstances σ} {h : Holdings σ}

/-- A call that fails with refusals only, and after which every field lies in an existing category
and no two rows of a table have the same number. -/
structure Safe (call : Call σ α) (k : Circumstances σ) (h : Holdings σ) : Prop where
  refusal : ∀ e h', call.run k h = (.error e, h') → e.isRefusal = true
  referential : ∀ result h', call.run k h = (result, h') → h'.contents.Referential
  categoryIds : ∀ result h', call.run k h = (result, h') →
    (h'.contents.categories.rows.map Category.id).Nodup
  fieldIds : ∀ result h', call.run k h = (result, h') →
    (h'.contents.fields.rows.map Field.id).Nodup

theorem Ensures.safe {call : Call σ α} {post : α → Contents → Prop}
    (hcall : call.Ensures k h post) (hc : h.contents.Referential)
    (hpost : ∀ a c', post a c' → c'.Referential) (hheld : k.heldElsewhere = false)
    (hbuiltin : k.registry = .builtin) : call.Safe k h where
  refusal e h' hrun := hcall.refusal e h' hrun hheld hbuiltin
  referential result h' hrun := by
    cases result with
    | ok a => exact hpost a _ (hcall.ok a h' hrun)
    | error e =>
      rw [hcall.unchanged e h' hrun]
      exact hc
  categoryIds _ h' _ := h'.contents.categories.nodup_keys
  fieldIds _ h' _ := h'.contents.fields.nodup_keys

/-- A read changes nothing. -/
theorem ensures_query {s : Statement α} (hs : Refuses (s.on h.contents).1) :
    (query s).Ensures k h fun _ c' => c' = h.contents := by
  have hrun : (query s).run k h = ((s.on h.contents).1, h) := rfl
  cases hresult : (s.on h.contents).1 with
  | ok a =>
    rw [hresult] at hrun
    exact ensures_of_ok hrun rfl
  | error e =>
    rw [hresult] at hrun
    exact ensures_of_error hrun rfl fun _ _ => hs e hresult

end Call

namespace Statement

variable {c : Contents}

theorem refuses_query {α : Type} (f : Contents → α) : Refuses ((query f).on c).1 :=
  .ok (f c)

theorem refuses_category (id : Id) : Refuses ((category id).on c).1 := by
  rw [on_category]
  cases c.category? id with
  | none => exact .error rfl
  | some row => exact .ok row

theorem refuses_field (id : Id) : Refuses ((field id).on c).1 := by
  rw [on_field]
  cases c.field? id with
  | none => exact .error rfl
  | some row => exact .ok row

theorem refuses_areaOf (hc : c.Referential) (kind : Kind) (id : Id) :
    Refuses ((areaOf kind id).on c).1 := by
  rw [on_areaOf hc]
  cases c.entryArea? kind id with
  | none => exact .error rfl
  | some area => exact .ok area

end Statement

/-- An inquiry changes nothing. -/
theorem Inquiry.ensures {σ : Type} (q : Inquiry) {k : Circumstances σ} {h : Holdings σ}
    (hc : h.contents.Referential) : q.perform.Ensures k h fun _ c' => c' = h.contents := by
  cases q with
  | category id => exact (Call.ensures_query (Statement.refuses_category id)).map fun _ _ h => h
  | field id => exact (Call.ensures_query (Statement.refuses_field id)).map fun _ _ h => h
  | categories area => exact (Call.ensures_query (Statement.refuses_query _)).map fun _ _ h => h
  | fields categoryid => exact (Call.ensures_query (Statement.refuses_query _)).map fun _ _ h => h
  | list scope => exact (Call.ensures_query (Statement.refuses_query _)).map fun _ _ h => h
  | count scope => exact (Call.ensures_query (Statement.refuses_query _)).map fun _ _ h => h
  | configuration area => exact (Call.ensures_query (Statement.refuses_query _)).map fun _ _ h => h
  | areaOf kind id =>
    exact (Call.ensures_query (Statement.refuses_areaOf hc kind id)).map fun _ _ h => h

namespace Catalog

variable {σ : Type} {k : Circumstances σ} {h : Holdings σ}

/-- While nobody else holds the write lock and the types are the built-in ones, every operation fails
with refusals only, and keeps every field in an existing category and all numbers apart. -/
theorem operations_safe (hc : h.contents.Referential) (hheld : k.heldElsewhere = false)
    (hbuiltin : k.registry = .builtin) :
    (∀ m : Mutation, m.perform.Safe k h) ∧ ∀ q : Inquiry, q.perform.Safe k h := by
  constructor
  · -- An operation makes one change or none, and either keeps every field in an existing category.
    intro m
    refine (m.ensures hc).safe hc (fun _ c' hpost => ?_) hheld hbuiltin
    rcases hpost with rfl | ⟨area, -, hchange⟩
    · exact hc
    · exact hchange.referential hc
  · -- An inquiry changes nothing.
    intro q
    refine (q.ensures hc).safe hc (fun _ c' hpost => ?_) hheld hbuiltin
    exact hpost ▸ hc

/-- Numbers and positions that no catalog would have chosen by itself. -/
def unkempt : Contents where
  categories := ⟨[⟨-3, "General", "", ⟨"core", "course", 0⟩, 7, 5, 5⟩,
    ⟨0, "Planning", "", ⟨"core", "course", 0⟩, 7, 5, 5⟩], by decide⟩
  fields := ⟨[⟨0, "level", "Level", "text", "", -3, -2, "\x7b\x7d", 5, 5⟩,
    ⟨4, "credits", "Credits", "text", "", 0, 9, "\x7b\x7d", 5, 5⟩], by decide⟩

theorem operations_safe_unkempt :
    unkempt.Referential ∧ (Mutation.perform (σ := Unit) (.deleteCategory (-3))).Safe
      ⟨.builtin, 3, false, 6⟩ ⟨unkempt, ()⟩ :=
  have hc : unkempt.Referential := by decide
  ⟨hc, (operations_safe hc rfl rfl).1 (.deleteCategory (-3))⟩

end Catalog

end FieldCatalog
