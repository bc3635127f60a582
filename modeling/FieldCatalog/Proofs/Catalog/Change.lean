import FieldCatalog.Proofs.Catalog.FieldEffect
import FieldCatalog.Proofs.Store.Rearrangement
import FieldCatalog.Proofs.Text.Trimmed

/-!
# What a change can be

Every operation that succeeds makes at most one edit of the tables and then settles listings of one
area, among them every listing that the edit has disturbed. Invariants of catalogs are proved for
edits and for settling, and not for each operation again.

## Main definitions

* `Contents.Settled`: listings of an area settled one after another
* `Contents.Edit`: what an operation does to the tables before it settles
* `Contents.Change`: an edit, and the listings it disturbs settled
* `Contents.Positive`: every number is at least one

## Main results

* `Contents.Settled.rearranged`: settling rearranges
* `Contents.Change.referential`, `Contents.Change.positive`: what a change keeps
-/

namespace FieldCatalog

namespace Contents

variable {now : Int} {area : Area} {scope : Scope} {scopes : List Scope} {c c' c'' : Contents}

/-! ## Settling listings -/

/-- Listings of an area have been settled one after another, each in some order of its entries. -/
inductive Settled (now : Int) (area : Area) : List Scope → Contents → Contents → Prop
  | refl (c : Contents) : Settled now area [] c c
  | step {scope : Scope} {scopes : List Scope} {c c' : Contents} {order : List Member}
      (belongs : c.areaOf? scope = some area) (perm : order.Perm (c.list scope))
      (rest : Settled now area scopes (c.settle now scope.kind order) c') :
      Settled now area (scope :: scopes) c c'

theorem Settled.one (now : Int) {order : List Member} (belongs : c.areaOf? scope = some area)
    (perm : order.Perm (c.list scope)) :
    Settled now area [scope] c (c.settle now scope.kind order) :=
  .step belongs perm (.refl _)

theorem Settled.append {scopes' : List Scope} (h : Settled now area scopes c c')
    (h' : Settled now area scopes' c' c'') : Settled now area (scopes ++ scopes') c c'' := by
  induction h with
  | refl c => exact h'
  | step belongs perm _ ih => exact .step belongs perm (ih h')

/-- Settling rearranges. -/
theorem Settled.rearranged (h : Settled now area scopes c c') : c.Rearranged c' := by
  induction h with
  | refl c => exact .refl c
  | step _ _ _ ih => exact (rearranged_settle _ now _ _).trans ih

/-! ## Edits -/

/-- What an operation at a given time does to the tables in an area before it settles listings,
with the listings that are to be settled. -/
inductive Edit (now : Int) (area : Area) (c : Contents) : List Scope → Contents → Prop
  | none {scopes : List Scope} : Edit now area c scopes c
  | addCategory (name : Option String) (named : area.check = .ok ()) :
      Edit now area c [.categories area] (c.withCategory (c.newCategory area name now))
  | retitle {old : Category} {name : String} (found : c.category? old.id = some old)
      (belongs : old.area = area) (trimmed : Text.IsTrimmed name) :
      Edit now area c [] (c.withCategory
        (c.storedCategory { old with name, timemodified := now }))
  | removeCategory {old : Category} (found : c.category? old.id = some old)
      (belongs : old.area = area) :
      Edit now area c [.categories area] (c.withoutCategory old.id)
  | addField {home : Category} {draft : Draft} (configdata : String)
      (found : c.category? home.id = some home) (belongs : home.area = area)
      (free : c.fieldByShortname area draft.shortname = none)
      (proper : isShortname draft.shortname.toList = true) (trimmed : Text.IsTrimmed draft.name) :
      Edit now area c [.fields home.id] (c.withField (c.newField home.id draft configdata now))
  | amend {old : Field} {name : String} (description configdata : String)
      (found : c.field? old.id = some old) (belongs : c.areaOf? (.fields old.categoryid) = some area)
      (trimmed : name = old.name ∨ Text.IsTrimmed name) :
      Edit now area c [] (c.withField
        (c.storedField { old with name, description, configdata, timemodified := now }))
  | removeField {old : Field} (found : c.field? old.id = some old)
      (belongs : c.areaOf? (.fields old.categoryid) = some area) :
      Edit now area c [.fields old.categoryid] (c.withoutField old.id)
  | rehome {old : Field} {home : Id} (found : c.field? old.id = some old)
      (belongs : c.areaOf? (.fields old.categoryid) = some area)
      (reaches : c.areaOf? (.fields home) = some area) :
      Edit now area c [.fields home, .fields old.categoryid] (c.rehome old.id home now)

/-- One edit in an area, after which the listings it disturbs have been settled. -/
inductive Change (now : Int) (area : Area) (c c' : Contents) : Prop
  | intro {scopes : List Scope} {c₁ : Contents} (edit : Edit now area c scopes c₁)
      (settled : Settled now area scopes c₁ c')

theorem Change.of_settled (h : Settled now area scopes c c') : Change now area c c' :=
  ⟨.none, h⟩

/-- An edit that disturbs no listing. -/
theorem Change.of_edit (h : Edit now area c [] c') : Change now area c c' :=
  ⟨h, .refl _⟩

/-! ## Stored rows -/

theorem storedCategory_of_ne {row old : Category} (hold : c.category? row.id = some old)
    (hne : row.id ≠ 0) (htime : row.timecreated = old.timecreated) : c.storedCategory row = row := by
  simp only [storedCategory, if_neg hne, hold, ← htime]

theorem storedField_of_ne {row old : Field} (hold : c.field? row.id = some old)
    (hne : row.id ≠ 0) (htime : row.timecreated = old.timecreated) : c.storedField row = row := by
  simp only [storedField, if_neg hne, hold, ← htime]

/-- Storing a field changes at most its number and its time of creation. -/
theorem storedField_eq (c : Contents) (row : Field) :
    ∃ id timecreated, c.storedField row = { row with id, timecreated } := by
  unfold storedField
  split
  · exact ⟨_, _, rfl⟩
  · split <;> exact ⟨_, _, rfl⟩

/-- A field of an existing category can be stored. -/
theorem on_putField_of_hasCategory (row : Field) (hhome : c.hasCategory row.categoryid = true) :
    (Statement.putField row).on c = (.ok (c.storedField row).id, c.withField (c.storedField row)) := by
  rw [Statement.on_putField, categoryid_storedField, if_pos hhome]
  rfl

/-! ## Fields in existing categories -/

theorem mem_withCategory {row x : Category} :
    x ∈ (c.withCategory row).categories ↔ x = row ∨ (x ∈ c.categories ∧ x.id ≠ row.id) :=
  Table.mem_put

theorem mem_withField {row x : Field} :
    x ∈ (c.withField row).fields ↔ x = row ∨ (x ∈ c.fields ∧ x.id ≠ row.id) :=
  Table.mem_put

theorem mem_rehome {id home : Id} {x : Field} :
    x ∈ (c.rehome id home now).fields ↔ (x ∈ c.fields ∧ x.id ≠ id) ∨
      ∃ row ∈ c.fields, row.id = id ∧ x = row.rehome home now := by
  rw [rehome, Table.mem_modify]

theorem referential_withCategory (h : c.Referential) (row : Category) :
    (c.withCategory row).Referential := by
  intro field hfield
  obtain ⟨home, hhome, hid⟩ := h field hfield
  -- The category of the field may be the one that is replaced.
  by_cases he : home.id = row.id
  · exact ⟨row, mem_withCategory.mpr (.inl rfl), he.symm.trans hid⟩
  · exact ⟨home, mem_withCategory.mpr (.inr ⟨hhome, he⟩), hid⟩

/-- The fields of a deleted category are deleted as well. -/
theorem referential_withoutCategory (h : c.Referential) (id : Id) :
    (c.withoutCategory id).Referential := by
  intro field hfield
  obtain ⟨hmem, hne⟩ := Table.mem_eraseWhere.mp hfield
  obtain ⟨home, hhome, hid⟩ := h field hmem
  refine ⟨home, Table.mem_erase.mpr ⟨hhome, fun he => ?_⟩, hid⟩
  have hne' : field.categoryid ≠ id := by simpa using hne
  exact hne' (hid.symm.trans he)

theorem referential_withField (h : c.Referential) {row : Field} {home : Category}
    (hhome : c.category? row.categoryid = some home) : (c.withField row).Referential := by
  intro field hfield
  rcases mem_withField.mp hfield with rfl | ⟨hmem, -⟩
  · exact ⟨home, category?_eq_some_iff.mp hhome⟩
  · exact h field hmem

theorem referential_withoutField (h : c.Referential) (id : Id) : (c.withoutField id).Referential :=
  fun field hfield => h field (Table.mem_erase.mp hfield).1

theorem referential_rehome (h : c.Referential) (id : Id) {home : Id} {category : Category}
    (hhome : c.category? home = some category) : (c.rehome id home now).Referential := by
  intro field hfield
  rcases mem_rehome.mp hfield with ⟨hmem, -⟩ | ⟨old, -, -, rfl⟩
  · exact h field hmem
  · exact ⟨category, category?_eq_some_iff.mp hhome⟩

theorem category?_of_areaOf? {id : Id} (h : c.areaOf? (.fields id) = some area) :
    ∃ home, c.category? id = some home ∧ home.area = area :=
  Option.map_eq_some_iff.mp h

theorem Edit.referential (h : Edit now area c scopes c') (hc : c.Referential) :
    c'.Referential := by
  -- Fields gain a category only by an edit that has found the category to exist.
  cases h with
  | none => exact hc
  | addCategory => exact referential_withCategory hc _
  | retitle => exact referential_withCategory hc _
  | removeCategory => exact referential_withoutCategory hc _
  | addField _ found => exact referential_withField hc found
  | @amend old name description configdata found belongs trimmed =>
    obtain ⟨home, hhome, -⟩ := category?_of_areaOf? belongs
    obtain ⟨id, timecreated, hrow⟩ :=
      c.storedField_eq { old with name, description, configdata, timemodified := now }
    rw [hrow]
    exact referential_withField hc hhome
  | removeField => exact referential_withoutField hc _
  | rehome _ _ reaches =>
    obtain ⟨home, hhome, -⟩ := category?_of_areaOf? reaches
    exact referential_rehome hc _ hhome

/-- After a change every field still lies in an existing category. -/
theorem Change.referential (h : Change now area c c') (hc : c.Referential) : c'.Referential :=
  let ⟨edit, settled⟩ := h
  settled.rearranged.referential (edit.referential hc)

/-! ## Positive numbers -/

/-- Every number is at least one. -/
structure Positive (c : Contents) : Prop where
  categories : ∀ row ∈ c.categories, 1 ≤ row.id
  fields : ∀ row ∈ c.fields, 1 ≤ row.id

theorem Rearranged.positive (h : c.Rearranged c') (hc : c.Positive) : c'.Positive where
  categories row hrow := by
    obtain ⟨old, hold, -⟩ := h.category (category?_eq_some_iff.mpr ⟨hrow, rfl⟩)
    obtain ⟨hmem, hid⟩ := category?_eq_some_iff.mp hold
    exact hid ▸ hc.categories old hmem
  fields row hrow := by
    obtain ⟨old, hold, -⟩ := h.field (field?_eq_some_iff.mpr ⟨hrow, rfl⟩)
    obtain ⟨hmem, hid⟩ := field?_eq_some_iff.mp hold
    exact hid ▸ hc.fields old hmem

/-- New numbers are positive in a table of positive numbers. -/
theorem one_le_nextKey {α : Type} {key : α → Int} {t : Table α key}
    (h : ∀ row ∈ t, 1 ≤ key row) : 1 ≤ t.nextKey := by
  unfold Table.nextKey
  split
  · exact Int.le_refl 1
  · next row hlast =>
    have := h row (List.mem_of_getLast? hlast)
    omega

theorem Positive.withCategory (h : c.Positive) {row : Category} (hrow : 1 ≤ row.id) :
    (c.withCategory row).Positive where
  categories x hx := by
    rcases mem_withCategory.mp hx with rfl | ⟨hmem, -⟩
    · exact hrow
    · exact h.categories x hmem
  fields := h.fields

theorem Positive.withField (h : c.Positive) {row : Field} (hrow : 1 ≤ row.id) :
    (c.withField row).Positive where
  categories := h.categories
  fields x hx := by
    rcases mem_withField.mp hx with rfl | ⟨hmem, -⟩
    · exact hrow
    · exact h.fields x hmem

/-- A category that is found again when it is stored keeps its positive number. -/
theorem Positive.storedCategory_eq (h : c.Positive) (row : Category) {old : Category}
    (hold : c.category? row.id = some old) (htime : row.timecreated = old.timecreated) :
    c.storedCategory row = row := by
  obtain ⟨hmem, hid⟩ := category?_eq_some_iff.mp hold
  have hpos : 1 ≤ row.id := hid ▸ h.categories old hmem
  exact storedCategory_of_ne hold (Int.ne_of_gt (Int.lt_of_lt_of_le Int.zero_lt_one hpos)) htime

/-- A field that is found again when it is stored keeps its positive number. -/
theorem Positive.storedField_eq (h : c.Positive) (row : Field) {old : Field}
    (hold : c.field? row.id = some old) (htime : row.timecreated = old.timecreated) :
    c.storedField row = row := by
  obtain ⟨hmem, hid⟩ := field?_eq_some_iff.mp hold
  have hpos : 1 ≤ row.id := hid ▸ h.fields old hmem
  exact storedField_of_ne hold (Int.ne_of_gt (Int.lt_of_lt_of_le Int.zero_lt_one hpos)) htime

theorem Edit.positive (h : Edit now area c scopes c') (hc : c.Positive) : c'.Positive := by
  -- A row that is new has the next number of its table, and any other row keeps its number.
  cases h with
  | none => exact hc
  | addCategory => exact hc.withCategory (one_le_nextKey hc.categories)
  | @retitle old name found =>
    rw [hc.storedCategory_eq { old with name, timemodified := now } found rfl]
    exact hc.withCategory (hc.categories old (category?_eq_some_iff.mp found).1)
  | removeCategory =>
    exact ⟨fun row hrow => hc.categories row (Table.mem_erase.mp hrow).1,
      fun row hrow => hc.fields row (Table.mem_eraseWhere.mp hrow).1⟩
  | addField => exact hc.withField (one_le_nextKey hc.fields)
  | @amend old name description configdata found =>
    rw [hc.storedField_eq
      { old with name, description, configdata, timemodified := now } found rfl]
    exact hc.withField (hc.fields old (field?_eq_some_iff.mp found).1)
  | removeField => exact ⟨hc.categories, fun row hrow => hc.fields row (Table.mem_erase.mp hrow).1⟩
  | rehome =>
    refine ⟨hc.categories, fun row hrow => ?_⟩
    rcases mem_rehome.mp hrow with ⟨hmem, -⟩ | ⟨old, hold, -, rfl⟩
    · exact hc.fields row hmem
    · exact hc.fields old hold

/-- After a change every number is still positive. -/
theorem Change.positive (h : Change now area c c') (hc : c.Positive) : c'.Positive :=
  let ⟨edit, settled⟩ := h
  settled.rearranged.positive (edit.positive hc)

/-! ## A small catalog -/

/-- Two categories of one area, and two fields in the first of them. -/
def sample : Contents where
  categories := ⟨[⟨1, "General", "", ⟨"core", "course", 0⟩, 0, 5, 5⟩,
    ⟨2, "Planning", "", ⟨"core", "course", 0⟩, 1, 5, 5⟩], by decide⟩
  fields := ⟨[⟨1, "level", "Level", "text", "", 1, 0, "\x7b\x7d", 5, 5⟩,
    ⟨2, "credits", "Credits", "text", "", 1, 1, "\x7b\x7d", 5, 5⟩], by decide⟩

example : sample.Referential := by decide

end Contents

end FieldCatalog
