import FieldCatalog.Proofs.Store.Running
import FieldCatalog.Proofs.Store.Settlement

/-!
# Rearranged contents

Two contents are rearrangements of each other when they hold the same rows up to positions and time
stamps. Settling an order rearranges the contents, so whatever does not speak of positions and time
stamps is kept by it.

## Main definitions

* `Category.unplaced`, `Field.unplaced`: a row without regard to its position and its time stamp
* `Contents.Rearranged`: the same rows but for positions and time stamps
* `Contents.entryArea?`: the area that an entry belongs to

## Main results

* `Contents.rearranged_settle`: settling rearranges
* `Contents.Rearranged.referential`: rearranging keeps every field in an existing category
* `Contents.Rearranged.areaOf?_eq`, `Contents.Rearranged.entryArea?_eq`: what belongs to an area
  stays there
-/

namespace FieldCatalog

/-- A category without regard to its position and its time stamp. -/
def Category.unplaced (row : Category) : Category :=
  { row with sortorder := 0, timemodified := 0 }

/-- A field without regard to its position and its time stamp. -/
def Field.unplaced (row : Field) : Field :=
  { row with sortorder := 0, timemodified := 0 }

@[simp] theorem Category.unplaced_moveTo (now position : Int) (row : Category) :
    (row.moveTo now position).unplaced = row.unplaced := by
  unfold Category.moveTo
  split <;> rfl

@[simp] theorem Field.unplaced_moveTo (now position : Int) (row : Field) :
    (row.moveTo now position).unplaced = row.unplaced := by
  unfold Field.moveTo
  split <;> rfl

namespace Contents

instance (c : Contents) : Decidable c.Referential :=
  inferInstanceAs (Decidable (∀ field ∈ c.fields, ∃ category ∈ c.categories, _))

/-- Every field lies in an existing category, told from the look-ups. -/
theorem referential_iff {c : Contents} :
    c.Referential ↔ ∀ id field, c.field? id = some field →
      ∃ home, c.category? field.categoryid = some home := by
  constructor
  · intro h id field hf
    obtain ⟨home, hhome, hid⟩ := h field (field?_eq_some_iff.mp hf).1
    exact ⟨home, category?_eq_some_iff.mpr ⟨hhome, hid⟩⟩
  · intro h field hf
    obtain ⟨home, hhome⟩ := h field.id field (field?_eq_some_iff.mpr ⟨hf, rfl⟩)
    exact ⟨home, category?_eq_some_iff.mp hhome⟩

/-- The category of a field exists. -/
theorem Referential.hasCategory {c : Contents} (h : c.Referential) {id : Id} {field : Field}
    (hf : c.field? id = some field) : c.hasCategory field.categoryid = true :=
  Option.isSome_iff_exists.mpr (referential_iff.mp h id field hf)

/-- The area that a category, or the category of a field, belongs to. -/
def entryArea? (c : Contents) : Kind → Id → Option Area
  | .category, id => (c.category? id).map Category.area
  | .field, id => (c.field? id).bind fun field => c.areaOf? field.scope

/-- Two contents hold the same rows but for positions and time stamps. -/
structure Rearranged (c c' : Contents) : Prop where
  categories : ∀ id, (c'.category? id).map Category.unplaced = (c.category? id).map Category.unplaced
  fields : ∀ id, (c'.field? id).map Field.unplaced = (c.field? id).map Field.unplaced

namespace Rearranged

variable {c c' c'' : Contents}

theorem refl (c : Contents) : c.Rearranged c := ⟨fun _ => rfl, fun _ => rfl⟩

theorem symm (h : c.Rearranged c') : c'.Rearranged c :=
  ⟨fun id => (h.categories id).symm, fun id => (h.fields id).symm⟩

theorem trans (h : c.Rearranged c') (h' : c'.Rearranged c'') : c.Rearranged c'' :=
  ⟨fun id => (h'.categories id).trans (h.categories id),
    fun id => (h'.fields id).trans (h.fields id)⟩

theorem category (h : c.Rearranged c') {id : Id} {row : Category} (hrow : c'.category? id = some row) :
    ∃ old, c.category? id = some old ∧ old.unplaced = row.unplaced := by
  have hid := h.categories id
  rw [hrow, Option.map_some] at hid
  exact Option.map_eq_some_iff.mp hid.symm

theorem field (h : c.Rearranged c') {id : Id} {row : Field} (hrow : c'.field? id = some row) :
    ∃ old, c.field? id = some old ∧ old.unplaced = row.unplaced := by
  have hid := h.fields id
  rw [hrow, Option.map_some] at hid
  exact Option.map_eq_some_iff.mp hid.symm

theorem area_eq (h : c.Rearranged c') (id : Id) :
    (c'.category? id).map Category.area = (c.category? id).map Category.area := by
  have hid := congrArg (Option.map Category.area) (h.categories id)
  rwa [Option.map_map, Option.map_map] at hid

/-- What belongs to an area stays there. -/
theorem areaOf?_eq (h : c.Rearranged c') (scope : Scope) : c'.areaOf? scope = c.areaOf? scope := by
  cases scope with
  | categories area => rfl
  | fields id => exact h.area_eq id

theorem entryArea?_eq (h : c.Rearranged c') (kind : Kind) (id : Id) :
    c'.entryArea? kind id = c.entryArea? kind id := by
  cases kind with
  | category => exact h.area_eq id
  | field =>
    -- The field has kept its category, and the category its area.
    simp only [entryArea?]
    cases hf : c'.field? id with
    | none =>
      have hid := h.fields id
      rw [hf] at hid
      rw [Option.map_eq_none_iff.mp hid.symm]
      rfl
    | some row =>
      obtain ⟨old, hold, hu⟩ := h.field hf
      have hhome : old.categoryid = row.categoryid := (congrArg Field.categoryid hu :)
      rw [hold, Option.bind_some, Option.bind_some, h.areaOf?_eq, Field.scope, Field.scope, hhome]

/-- Rearranging keeps every field in an existing category. -/
theorem referential (h : c.Rearranged c') (hc : c.Referential) : c'.Referential := by
  -- The field has had its category before, and the category is still there.
  refine referential_iff.mpr fun id row hrow => ?_
  obtain ⟨old, hold, hu⟩ := h.field hrow
  obtain ⟨home, hhome⟩ := referential_iff.mp hc id old hold
  obtain ⟨home', hhome', -⟩ := h.symm.category hhome
  have hid : old.categoryid = row.categoryid := (congrArg Field.categoryid hu :)
  exact ⟨home', hid ▸ hhome'⟩

end Rearranged

/-- Settling an order rearranges the contents. -/
theorem rearranged_settle (c : Contents) (now : Int) (kind : Kind) (order : List Member) :
    c.Rearranged (c.settle now kind order) := by
  -- Rows of the kind are moved, and rows of the other kind are not touched.
  cases kind with
  | category =>
    refine ⟨fun id => ?_, fun id => rfl⟩
    rw [category?_settle_category, Option.map_map]
    exact congrArg (Option.map · _) (funext fun row => row.unplaced_moveTo now _)
  | field =>
    refine ⟨fun id => rfl, fun id => ?_⟩
    rw [field?_settle_field, Option.map_map]
    exact congrArg (Option.map · _) (funext fun row => row.unplaced_moveTo now _)

end Contents

end FieldCatalog
