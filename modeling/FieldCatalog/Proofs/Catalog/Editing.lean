import FieldCatalog.Proofs.Catalog.Safety
import FieldCatalog.Proofs.FieldType.Preparation
import FieldCatalog.Session

/-!
# Edits in place

Renaming a category and updating a field read a row, change it and put it back. A row that is put
back replaces the one of its number, with one exception: the number zero stands for a row that is yet
to be numbered. A catalog that has only negative numbers gives the number zero to its next row, and
from then on an edit of that row leaves it as it was and adds a changed copy.

## Main definitions

* `Contents.categoryIds`, `Contents.fieldIds`: the numbers in use
* `Amendment.applied`: a field as an amendment wants it
* `Call.EditsInPlace`: an edit after which the same numbers are in use, and its answer is stored

## Main results

* `Table.keys_put_eq_iff`: a row that is put adds a key unless it replaces a row
* `Catalog.renameCategory_eq_ok`, `Catalog.updateField_eq_ok`: the two edits
* `Catalog.edits_in_place_iff`: an edit is made in place just when the number is not zero
-/

namespace FieldCatalog

/-! ## Keys of tables -/

namespace Table

variable {α : Type} {key : α → Int}

theorem map_key_insertRow {row : α} {rows : List α}
    (hsorted : rows.Pairwise fun a b => key a < key b) (h : ∃ other ∈ rows, key other = key row) :
    (insertRow key row rows).map key = rows.map key := by
  -- Induction on the rows: the row of the key is the first one or stands among the others.
  induction rows with
  | nil =>
    obtain ⟨_, hmem, -⟩ := h
    cases hmem
  | cons first rest ih =>
    obtain ⟨hfirst, hrest⟩ := List.pairwise_cons.mp hsorted
    obtain ⟨other, hmem, hkey⟩ := h
    unfold insertRow
    rcases List.mem_cons.mp hmem with rfl | hmem
    · rw [if_neg (by omega), if_pos hkey.symm, List.map_cons, List.map_cons, hkey]
    · have hlt := hfirst other hmem
      rw [if_neg (by omega), if_neg (by omega), List.map_cons, List.map_cons,
        ih hrest ⟨other, hmem, hkey⟩]

/-- A row that is put adds its key, unless it replaces a row of that key. -/
theorem keys_put_eq_iff {t : Table α key} {row : α} :
    (t.put row).rows.map key = t.rows.map key ↔ ∃ other ∈ t, key other = key row := by
  constructor
  · intro h
    have hmem : key row ∈ (t.put row).rows.map key :=
      List.mem_map.mpr ⟨row, mem_put.mpr (.inl rfl), rfl⟩
    rw [h] at hmem
    exact List.mem_map.mp hmem
  · exact map_key_insertRow t.ascending

end Table

namespace Contents

variable {c : Contents}

/-- The numbers of the categories. -/
def categoryIds (c : Contents) : List Id := c.categories.rows.map Category.id

/-- The numbers of the fields. -/
def fieldIds (c : Contents) : List Id := c.fields.rows.map Field.id

/-- A category that is put back keeps the numbers in use just when its own is not zero. -/
theorem categoryIds_putBack (row : Category) {old : Category}
    (hold : c.category? row.id = some old) :
    (c.withCategory (c.storedCategory row)).categoryIds = c.categoryIds ↔ row.id ≠ 0 := by
  refine Table.keys_put_eq_iff.trans ⟨?_, fun hne => ?_⟩
  · -- The next number is that of no category.
    rintro ⟨other, hother, hid⟩ hzero
    rw [storedCategory, if_pos hzero] at hid
    exact Int.ne_of_lt (Table.lt_nextKey hother) hid
  · obtain ⟨hmem, hid⟩ := category?_eq_some_iff.mp hold
    refine ⟨old, hmem, ?_⟩
    simp only [storedCategory, if_neg hne, hold, hid]

/-- A field that is put back keeps the numbers in use just when its own is not zero. -/
theorem fieldIds_putBack (row : Field) {old : Field} (hold : c.field? row.id = some old) :
    (c.withField (c.storedField row)).fieldIds = c.fieldIds ↔ row.id ≠ 0 := by
  refine Table.keys_put_eq_iff.trans ⟨?_, fun hne => ?_⟩
  · rintro ⟨other, hother, hid⟩ hzero
    rw [storedField, if_pos hzero] at hid
    exact Int.ne_of_lt (Table.lt_nextKey hother) hid
  · obtain ⟨hmem, hid⟩ := field?_eq_some_iff.mp hold
    refine ⟨old, hmem, ?_⟩
    simp only [storedField, if_neg hne, hold, hid]

end Contents

/-! ## Steps that succeed -/

namespace Transaction

variable {σ α β : Type} {h h' : Holdings σ}

theorem bind_eq_ok {first : Transaction σ α} {next : α → Transaction σ β} {b : β}
    (hrun : (first >>= next) h = (.ok b, h')) :
    ∃ a h₁, first h = (.ok a, h₁) ∧ next a h₁ = (.ok b, h') := by
  rw [bind_apply] at hrun
  rcases hfirst : first h with ⟨_ | a, h₁⟩ <;> rw [hfirst] at hrun
  · cases hrun
  · exact ⟨a, h₁, rfl, hrun⟩

theorem ofStatement_eq_ok {s : Statement α} {a : α} (hrun : ofStatement s h = (.ok a, h')) :
    s.on h.contents = (.ok a, h'.contents) := by
  simp only [ofStatement] at hrun
  generalize s.on h.contents = run at hrun ⊢
  obtain ⟨result, c⟩ := run
  cases hrun
  rfl

theorem ofCheck_eq_ok {outlook : Outlook} {check : Check σ α} {a : α}
    (hrun : ofCheck outlook check h = (.ok a, h')) :
    check outlook h.types = (.ok a, h'.types) ∧ h'.contents = h.contents := by
  simp only [ofCheck] at hrun
  generalize check outlook h.types = run at hrun ⊢
  obtain ⟨result, types⟩ := run
  cases hrun
  exact ⟨rfl, rfl⟩

end Transaction

namespace Statement

variable {c c' : Contents} {id : Id} {row : Field}

theorem field_eq_ok (hrun : (field id).on c = (.ok row, c')) :
    c.field? id = some row ∧ c' = c := by
  rw [on_field] at hrun
  cases h : c.field? id with
  | none =>
    rw [h] at hrun
    cases hrun
  | some found =>
    rw [h] at hrun
    cases hrun
    exact ⟨rfl, rfl⟩

theorem putField_eq_ok {number : Id} (hrun : (putField row).on c = (.ok number, c')) :
    c' = c.withField (c.storedField row) := by
  rw [on_putField] at hrun
  split at hrun
  · cases hrun
    rfl
  · cases hrun

end Statement

/-! ## Calls that edit -/

/-- A field as an amendment wants it at a given time: what the amendment leaves open stays. -/
def Amendment.applied (amendment : Amendment) (old : Field) (now : Int) : Field :=
  { old with
    name := (amendment.name.map Text.trim).getD old.name
    description := amendment.description.getD old.description
    configdata := (amendment.configdata.map Json.render).getD old.configdata
    timemodified := now }

namespace Call

variable {σ α : Type} {k : Circumstances σ} {h h' : Holdings σ}

/-- While nobody else holds the write lock, a transaction that succeeds is run once. -/
theorem run_mutateWith_of_ok {body : Circumstances σ → Transaction σ α} {a : α}
    (hheld : k.heldElsewhere = false) (hbody : body k h = (.ok a, h')) :
    (mutateWith body).run k h = (.ok a, h') := by
  have hattempt : Transaction.attempt k.heldElsewhere (body k) h = (.ok a, h') := by
    simp only [Transaction.attempt, hheld, hbody]
    rfl
  exact Transaction.retry_of_ok (k.attempts - 1) hattempt

theorem run_inquiry_category {id : Id} {row : Category} (hrow : h.contents.category? id = some row) :
    (Inquiry.category id).perform.run k h = (.ok (.category row), h) := by
  have hquery : (query (Statement.category id)).run k h = (.ok row, h) := by
    show (((Statement.category id).on h.contents).1, h) = _
    rw [Statement.on_category, hrow]
  rw [Inquiry.perform, run_bind, hquery]
  rfl

theorem run_inquiry_field {id : Id} {row : Field} (hrow : h.contents.field? id = some row) :
    (Inquiry.field id).perform.run k h = (.ok (.field row), h) := by
  have hquery : (query (Statement.field id)).run k h = (.ok row, h) := by
    show (((Statement.field id).on h.contents).1, h) = _
    rw [Statement.on_field, hrow]
  rw [Inquiry.perform, run_bind, hquery]
  rfl

/-- After an edit the same numbers are in use as before, and an inquiry finds what it answered. -/
structure EditsInPlace (k : Circumstances σ) (h h' : Holdings σ) (q : Inquiry) (finding : Finding) :
    Prop where
  categoryIds : h'.contents.categoryIds = h.contents.categoryIds
  fieldIds : h'.contents.fieldIds = h.contents.fieldIds
  found : q.perform.run k h' = (.ok finding, h')

end Call

namespace Catalog

open Contents Statement

variable {σ : Type} {k : Circumstances σ} {h h' : Holdings σ} {id : Id}

/-- A name that is not blank is proper. -/
theorem properName_of_not_blank (what : String) {name : String} (hname : Text.allBlank name = false) :
    properName what name = .ok (Text.trim name) := by
  have hne : Text.trim name ≠ "" := fun he => by
    rw [Text.trim_eq_empty_iff.mp he] at hname
    cases hname
  rw [properName, if_neg (by simpa using hne)]

/-- Renaming puts a category back under its new name. -/
theorem renameCategory_eq_ok {name : String} {old : Category} (hheld : k.heldElsewhere = false)
    (hold : h.contents.category? id = some old) (hname : Text.allBlank name = false) :
    (renameCategory id name).run k h =
      (.ok { old with name := Text.trim name, timemodified := k.now },
        { h with contents := h.contents.withCategory (h.contents.storedCategory
            { old with name := Text.trim name, timemodified := k.now }) }) := by
  have hbody : (retitleCategory id (Text.trim name) k.now).on h.contents =
      (.ok { old with name := Text.trim name, timemodified := k.now },
        h.contents.withCategory (h.contents.storedCategory
          { old with name := Text.trim name, timemodified := k.now })) := by
    rw [on_retitleCategory, hold]
  rw [renameCategory, Call.run_ofResult_bind, properName_of_not_blank "category" hname]
  exact Call.run_mutate_of_ok hheld hbody

/-- The new configuration of a field is the text of the one that is given, once it is prepared. -/
theorem amendedConfigdata_eq_ok {registry : Registry σ} {field : Field} {configdata : Option Json}
    {text : String} (hrun : amendedConfigdata registry field configdata h = (.ok text, h')) :
    text = (configdata.map Json.render).getD field.configdata ∧ h'.contents = h.contents ∧
      (configdata = none ∨ ∃ outlook state state',
        registry.prepare field.type configdata outlook state = (.ok text, state')) := by
  cases configdata with
  | none =>
    cases hrun
    exact ⟨rfl, rfl, .inl rfl⟩
  | some json =>
    have hasked : Transaction.ofCheck ⟨fun _ => .error .storeBusy⟩
        (registry.prepare field.type (some json)) h = (.ok text, h') := hrun
    obtain ⟨hprepare, hsame⟩ := Transaction.ofCheck_eq_ok hasked
    exact ⟨Registry.text_of_prepare hprepare, hsame, .inr ⟨_, _, _, hprepare⟩⟩

/-- An amendment that succeeds puts the field back as it is wanted. -/
theorem amend_eq_ok {registry : Registry σ} {amendment : Amendment} {now : Int} {row : Field}
    (hrun : amend registry id amendment now h = (.ok row, h')) :
    ∃ old, h.contents.field? id = some old ∧ row = amendment.applied old now ∧
      h'.contents = h.contents.withField (h.contents.storedField row) ∧
      (amendment.configdata = none ∨ ∃ outlook state state',
        registry.prepare old.type amendment.configdata outlook state =
          (.ok row.configdata, state')) := by
  -- The field is read, its configuration is worked out, and the field is put back.
  obtain ⟨old, h₁, hread, hrun⟩ := Transaction.bind_eq_ok hrun
  obtain ⟨text, h₂, hconfig, hrun⟩ := Transaction.bind_eq_ok hrun
  obtain ⟨number, h₃, hput, hrun⟩ := Transaction.bind_eq_ok hrun
  cases hrun
  obtain ⟨hold, hsame⟩ := field_eq_ok (Transaction.ofStatement_eq_ok hread)
  obtain ⟨rfl, hsame', hprepared⟩ := amendedConfigdata_eq_ok hconfig
  have hstored := putField_eq_ok (Transaction.ofStatement_eq_ok hput)
  rw [hsame', hsame] at hstored
  exact ⟨old, hold, rfl, hstored, hprepared⟩

/-- An update that succeeds puts the field back as it is wanted. -/
theorem updateField_eq_ok {amendment : Amendment} {row : Field}
    (hrun : (updateField id amendment).run k h = (.ok row, h')) :
    ∃ old, h.contents.field? id = some old ∧ row = amendment.applied old k.now ∧
      h'.contents = h.contents.withField (h.contents.storedField row) := by
  have hmutate : (Call.mutateWith fun c => amend c.registry id amendment c.now).run k h =
      (.ok row, h') := by
    unfold updateField at hrun
    split at hrun
    · next name _ =>
      -- A new name has been checked before.
      rw [Call.run_bind] at hrun
      cases hname : properName "field" name with
      | error e =>
        rw [hname] at hrun
        cases hrun
      | ok trimmed =>
        rw [hname] at hrun
        exact hrun
    · exact hrun
  -- What counts is the last attempt, which has found the contents as they were.
  have htried : Transaction.Tried k.heldElsewhere (amend k.registry id amendment k.now) h
      ((Call.mutateWith fun c => amend c.registry id amendment c.now).run k h) :=
    Transaction.tried_retry (k.attempts - 1)
  rw [hmutate] at htried
  obtain ⟨-, types, hbody⟩ := htried
  obtain ⟨old, hold, hrow, hcontents, -⟩ := amend_eq_ok hbody
  exact ⟨old, hold, hrow, hcontents⟩

/-- Renaming a category and updating a field answer the row with its new values, and the edit is made
in place just when the number of the row is not zero. -/
theorem edits_in_place_iff (k : Circumstances σ) (h : Holdings σ) (hheld : k.heldElsewhere = false) :
    (∀ (id : Id) (name : String) (old : Category), h.contents.category? id = some old →
      Text.allBlank name = false →
        let row := { old with name := Text.trim name, timemodified := k.now }
        ∃ h', (renameCategory id name).run k h = (.ok row, h') ∧
          (Call.EditsInPlace k h h' (.category id) (.category row) ↔ id ≠ 0)) ∧
    ∀ (id : Id) (amendment : Amendment) (row : Field) (h' : Holdings σ),
      (updateField id amendment).run k h = (.ok row, h') →
        ∃ old, h.contents.field? id = some old ∧ row = amendment.applied old k.now ∧
          (Call.EditsInPlace k h h' (.field id) (.field row) ↔ id ≠ 0) := by
  constructor
  · intro id name old hold hname row
    obtain ⟨-, rfl⟩ := category?_eq_some_iff.mp hold
    have hids := categoryIds_putBack row hold
    refine ⟨_, renameCategory_eq_ok hheld hold hname, fun hedit => hids.mp hedit.categoryIds,
      fun hne => ⟨hids.mpr hne, rfl, Call.run_inquiry_category ?_⟩⟩
    -- The row is stored under its own number, where the inquiry looks for it.
    have hrow : h.contents.storedCategory row = row := storedCategory_of_ne hold hne rfl
    show (h.contents.withCategory (h.contents.storedCategory row)).category? row.id = some row
    rw [hrow, category?_withCategory]
  · intro id amendment row h' hrun
    obtain ⟨old, hold, rfl, hcontents⟩ := updateField_eq_ok hrun
    obtain ⟨-, rfl⟩ := field?_eq_some_iff.mp hold
    refine ⟨old, hold, rfl, ?_⟩
    generalize hrow : amendment.applied old k.now = row at hcontents
    have hid : row.id = old.id := hrow ▸ rfl
    have htime : row.timecreated = old.timecreated := hrow ▸ rfl
    rw [← hid] at hold ⊢
    have hids := fieldIds_putBack row hold
    rw [← hcontents] at hids
    refine ⟨fun hedit => hids.mp hedit.fieldIds,
      fun hne => ⟨by rw [hcontents]; rfl, hids.mpr hne, Call.run_inquiry_field ?_⟩⟩
    rw [hcontents, storedField_of_ne hold hne htime, field?_withField]

theorem edits_in_place_iff_sample :
    let k : Circumstances Unit := ⟨.builtin, 3, false, 6⟩
    let h : Holdings Unit := ⟨.sample, ()⟩
    let row : Category := ⟨1, "Basics", "", ⟨"core", "course", 0⟩, 0, 5, 6⟩
    ∃ h', (renameCategory 1 " Basics").run k h = (.ok row, h') ∧
      Call.EditsInPlace k h h' (.category 1) (.category row) :=
  have ⟨h', hrun, hedit⟩ := (edits_in_place_iff (⟨.builtin, 3, false, 6⟩ : Circumstances Unit)
    ⟨.sample, ()⟩ rfl).1 1 " Basics" _ rfl (by decide)
  ⟨h', hrun, hedit.mpr (by decide)⟩

end Catalog

/-! ## Numbers below zero -/

namespace Session

/-- A catalog whose numbers are negative, so that its next rows get the number zero. -/
def belowZero : Session Unit where
  registry := .builtin
  attempts := 3
  storage := .memory
  heldElsewhere := false
  holdings := ⟨⟨⟨[⟨-1, "General", "", ⟨"core", "course", 0⟩, 0, 5, 5⟩], by decide⟩,
    ⟨[⟨-1, "level", "Level", "text", "", -1, 0, "\x7b\x7d", 5, 5⟩], by decide⟩⟩, ()⟩

/-- In a catalog that was given negative numbers only, a category and a field are created, and either
is doubled by its first edit: the row that was to be changed keeps its old name. -/
theorem edits_add_copies :
    let created := belowZero.run
      [(6, .perform (.createCategory ⟨"core", "course", 0⟩ (some "Planning"))),
        (7, .perform (.createField (-1) ⟨"credits", "Credits", "text", "", none⟩))]
    let renamed := created.run [(8, .perform (.renameCategory 0 "Schedule"))]
    let updated := created.run [(8, .perform (.updateField 0 ⟨some "Points", none, none⟩))]
    start .memory 3 (.seed belowZero.holdings.contents.categories.rows
        belowZero.holdings.contents.fields.rows) [] () = .ok belowZero ∧
      created.holdings.contents.categoryIds = [-1, 0] ∧
      renamed.holdings.contents.categoryIds = [-1, 0, 1] ∧
      (renamed.holdings.contents.category? 0).map Category.name = some "Planning" ∧
      created.holdings.contents.fieldIds = [-1, 0] ∧
      updated.holdings.contents.fieldIds = [-1, 0, 1] ∧
      (updated.holdings.contents.field? 0).map Field.name = some "Credits" :=
  ⟨rfl, by decide, by decide, by decide, by decide, by decide, by decide⟩

end Session

end FieldCatalog
