import FieldCatalog.Decimal.Numeral
import FieldCatalog.Proofs.Store.Rearrangement

/-!
# Putting rows

A row that is put under a number is found under it, whatever has been there before, and no other row
is touched; putting it again makes no difference. A row that is put with the number zero is added
behind the others.

## Main definitions

* `Table.Stores`: a row stands under its key, and the other keys are as they were
* `Table.Adds`: a row stands behind the others

## Main results

* `Table.stores_put`, `Table.put_eq_self`, `Table.adds_put`: rows that are put into a table
* `Statement.put_outcomes`: what putting a category or a field leads to
-/

namespace FieldCatalog

/-! ## Tables -/

namespace Table

variable {α : Type} {key : α → Int} {t : Table α key} {row : α}

/-- A row stands in a table under its key, and under every other key stands what has stood there
before. -/
structure Stores (t : Table α key) (row : α) (t' : Table α key) : Prop where
  found : t'.find? (key row) = some row
  others : ∀ k, k ≠ key row → t'.find? k = t.find? k

/-- One row has been added behind those of a table, under a key that is greater than theirs. The first
key of all is one. -/
structure Adds (t : Table α key) (row : α) (t' : Table α key) : Prop where
  rows : t'.rows = t.rows ++ [row]
  above : ∀ other ∈ t, key other < key row
  first : t.rows = [] → key row = 1

theorem stores_put (t : Table α key) (row : α) : t.Stores row (t.put row) where
  found := find?_eq_some_iff.mpr ⟨mem_put.mpr (.inl rfl), rfl⟩
  others _ := find?_put_of_ne

/-- A row that is in a table already makes no difference when it is put. -/
theorem put_eq_self (h : row ∈ t) : t.put row = t := by
  refine eq_of_mem_iff fun other => mem_put.trans ⟨?_, fun hother => ?_⟩
  · rintro (rfl | ⟨hother, -⟩)
    · exact h
    · exact hother
  · by_cases hkey : key other = key row
    · exact .inl (eq_of_key_eq hother h hkey)
    · exact .inr ⟨hother, hkey⟩

theorem insertRow_of_forall_lt {rows : List α} (h : ∀ other ∈ rows, key other < key row) :
    insertRow key row rows = rows ++ [row] := by
  induction rows with
  | nil => rfl
  | cons first rest ih =>
    have hfirst := h first List.mem_cons_self
    rw [insertRow, if_neg (Int.lt_asymm hfirst), if_neg (Int.ne_of_gt hfirst),
      ih fun other hother => h other (List.mem_cons_of_mem first hother), List.cons_append]

/-- A row of the next key is added. -/
theorem adds_put (h : key row = t.nextKey) : t.Adds row (t.put row) := by
  have habove : ∀ other ∈ t, key other < key row := fun other hother => h ▸ lt_nextKey hother
  refine ⟨insertRow_of_forall_lt habove, habove, fun hnone => ?_⟩
  rw [h, nextKey, hnone]
  rfl

/-- The next key fits into a word as long as the keys do and leave room for it. -/
theorem inWord_nextKey (h : ∀ other ∈ t, Decimal.InWord (key other))
    (hroom : ∀ other ∈ t, key other < Int64.maxValue.toInt) : Decimal.InWord t.nextKey := by
  unfold nextKey
  split
  · decide
  · next last hlast =>
    have hmem : last ∈ t := List.mem_of_getLast? hlast
    obtain ⟨hlow, -⟩ := h last hmem
    have hhigh := hroom last hmem
    exact ⟨by omega, by omega⟩

end Table

/-! ## Rows under their numbers -/

/-- A category with the time of creation of the one that it replaces, if it replaces one. -/
def Category.keeping (row : Category) (old : Option Category) : Category :=
  { row with timecreated := old.elim row.timecreated Category.timecreated }

/-- A field with the time of creation of the one that it replaces, if it replaces one. -/
def Field.keeping (row : Field) (old : Option Field) : Field :=
  { row with timecreated := old.elim row.timecreated Field.timecreated }

namespace Contents

variable {c : Contents}

theorem storedCategory_of_ne_zero {row : Category} (h : row.id ≠ 0) :
    c.storedCategory row = row.keeping (c.category? row.id) := by
  rw [storedCategory, if_neg h]
  cases c.category? row.id <;> rfl

theorem storedField_of_ne_zero {row : Field} (h : row.id ≠ 0) :
    c.storedField row = row.keeping (c.field? row.id) := by
  rw [storedField, if_neg h]
  cases c.field? row.id <;> rfl

end Contents

namespace Statement

variable {c : Contents}

theorem on_category_of_found {id : Id} {row : Category} (h : c.category? id = some row) :
    (category id).on c = (.ok row, c) := by
  rw [on_category, h]

theorem on_field_of_found {id : Id} {row : Field} (h : c.field? id = some row) :
    (field id).on c = (.ok row, c) := by
  rw [on_field, h]

theorem on_putCategory_of_ne_zero {row : Category} (h : row.id ≠ 0) :
    (putCategory row).on c = (.ok row.id,
      { c with categories := c.categories.put (row.keeping (c.category? row.id)) }) := by
  rw [on_putCategory, Contents.storedCategory_of_ne_zero h]
  rfl

theorem on_putCategory_of_zero {row : Category} (h : row.id = 0) :
    (putCategory row).on c = (.ok c.categories.nextKey,
      { c with categories := c.categories.put { row with id := c.categories.nextKey } }) := by
  rw [on_putCategory, Contents.storedCategory, if_pos h]

theorem on_putField_of_ne_zero {row : Field} (h : row.id ≠ 0)
    (hhome : c.hasCategory row.categoryid = true) :
    (putField row).on c = (.ok row.id,
      { c with fields := c.fields.put (row.keeping (c.field? row.id)) }) := by
  rw [on_putField, Contents.storedField_of_ne_zero h]
  exact if_pos hhome

theorem on_putField_of_zero {row : Field} (h : row.id = 0)
    (hhome : c.hasCategory row.categoryid = true) :
    (putField row).on c = (.ok c.fields.nextKey,
      { c with fields := c.fields.put { row with id := c.fields.nextKey } }) := by
  rw [on_putField, Contents.storedField, if_pos h]
  exact if_pos hhome

/-- A category that is there as it would be stored makes no difference when it is put again. -/
theorem on_putCategory_again {t : Table Category Category.id} {row : Category} (h : row.id ≠ 0)
    {old : Option Category} (hstored : t.Stores (row.keeping old) c.categories) :
    (putCategory row).on c = (.ok row.id, c) := by
  have hfound : c.category? row.id = some (row.keeping old) := hstored.found
  have hmem : row.keeping old ∈ c.categories := (Table.find?_eq_some_iff.mp hfound).1
  have hkept : row.keeping (c.category? row.id) = row.keeping old := by
    rw [hfound]
    rfl
  rw [on_putCategory_of_ne_zero h, hkept, Table.put_eq_self hmem]

/-- A field that is there as it would be stored makes no difference when it is put again. -/
theorem on_putField_again {t : Table Field Field.id} {row : Field} (h : row.id ≠ 0)
    (hhome : c.hasCategory row.categoryid = true) {old : Option Field}
    (hstored : t.Stores (row.keeping old) c.fields) : (putField row).on c = (.ok row.id, c) := by
  have hfound : c.field? row.id = some (row.keeping old) := hstored.found
  have hmem : row.keeping old ∈ c.fields := (Table.find?_eq_some_iff.mp hfound).1
  have hkept : row.keeping (c.field? row.id) = row.keeping old := by
    rw [hfound]
    rfl
  rw [on_putField_of_ne_zero h hhome, hkept, Table.put_eq_self hmem]

/-- What putting a row leads to. Under a number that is not zero it is found afterwards, with the time
of creation of a row that has been there, and putting it again changes nothing. With the number zero it
is added under a new number, which fits into a word if the numbers in use leave room for it. Nothing else
changes in either table: a category that is replaced keeps its fields. A field of a category that does
not exist is refused. -/
theorem put_outcomes (c : Contents) :
    (∀ row : Category, row.id ≠ 0 → ∃ c', (putCategory row).on c = (.ok row.id, c') ∧
      (category row.id).on c' = (.ok (row.keeping (c.category? row.id)), c') ∧
      c.categories.Stores (row.keeping (c.category? row.id)) c'.categories ∧ c'.fields = c.fields ∧
      (putCategory row).on c' = (.ok row.id, c')) ∧
    (∀ row : Category, row.id = 0 → ∃ id c', (putCategory row).on c = (.ok id, c') ∧
      c.categories.Adds { row with id } c'.categories ∧ c'.fields = c.fields ∧
      ((∀ other ∈ c.categories, Decimal.InWord other.id) →
        (∀ other ∈ c.categories, other.id < Int64.maxValue.toInt) → Decimal.InWord id)) ∧
    (∀ row : Field, (∃ home ∈ c.categories, home.id = row.categoryid) →
      (row.id ≠ 0 → ∃ c', (putField row).on c = (.ok row.id, c') ∧
        (field row.id).on c' = (.ok (row.keeping (c.field? row.id)), c') ∧
        c.fields.Stores (row.keeping (c.field? row.id)) c'.fields ∧ c'.categories = c.categories ∧
        (putField row).on c' = (.ok row.id, c')) ∧
      (row.id = 0 → ∃ id c', (putField row).on c = (.ok id, c') ∧
        c.fields.Adds { row with id } c'.fields ∧ c'.categories = c.categories ∧
        ((∀ other ∈ c.fields, Decimal.InWord other.id) →
          (∀ other ∈ c.fields, other.id < Int64.maxValue.toInt) → Decimal.InWord id))) ∧
    ∀ row : Field, (∀ home ∈ c.categories, home.id ≠ row.categoryid) →
      (putField row).on c = (.error (.persistence "FOREIGN KEY constraint failed"), c) := by
  refine ⟨fun row hrow => ?_, fun row hrow => ?_, fun row hhome => ⟨fun hrow => ?_, fun hrow => ?_⟩,
    fun row hhome => ?_⟩
  · have hstores := c.categories.stores_put (row.keeping (c.category? row.id))
    exact ⟨_, on_putCategory_of_ne_zero hrow, on_category_of_found hstores.found, hstores, rfl,
      on_putCategory_again hrow hstores⟩
  · exact ⟨_, _, on_putCategory_of_zero hrow, Table.adds_put rfl, rfl, Table.inWord_nextKey⟩
  · have hstores := c.fields.stores_put (row.keeping (c.field? row.id))
    have hcategory : c.hasCategory row.categoryid = true := Contents.hasCategory_iff.mpr hhome
    exact ⟨_, on_putField_of_ne_zero hrow hcategory, on_field_of_found hstores.found, hstores, rfl,
      on_putField_again hrow hcategory hstores⟩
  · have hcategory : c.hasCategory row.categoryid = true := Contents.hasCategory_iff.mpr hhome
    exact ⟨_, _, on_putField_of_zero hrow hcategory, Table.adds_put rfl, rfl, Table.inWord_nextKey⟩
  · have hmissing : ¬ c.hasCategory (c.storedField row).categoryid = true := by
      rw [Contents.categoryid_storedField, Contents.hasCategory_iff]
      rintro ⟨home, hmem, hid⟩
      exact hhome home hmem hid
    rw [on_putField, if_neg hmissing]
    rfl

/-- The only category has the number `-1`. It is replaced and keeps its field, a further category is
added behind it, and so is a field to it; there is no category for another field. -/
theorem put_outcomes_sample :
    let c : Contents :=
      { categories := ⟨[⟨-1, "General", "", ⟨"core", "course", 0⟩, 7, 5, 5⟩], by decide⟩
        fields := ⟨[⟨2, "level", "Level", "text", "", -1, 0, "\x7b\x7d", 5, 5⟩], by decide⟩ }
    let row : Category := ⟨-1, "Planning", "", ⟨"core", "user", 0⟩, 4, 9, 9⟩
    let entry : Field := ⟨0, "level", "Level", "text", "", -1, 0, "\x7b\x7d", 9, 9⟩
    (∃ c', (putCategory row).on c = (.ok (-1), c') ∧
      (category (-1)).on c' = (.ok { row with timecreated := 5 }, c') ∧ c'.fields = c.fields) ∧
    (∃ id c', (putCategory { row with id := 0 }).on c = (.ok id, c') ∧
      c'.categories.rows = c.categories.rows ++ [{ row with id }] ∧ Decimal.InWord id) ∧
    (∃ c', (putField { entry with id := 2 }).on c = (.ok 2, c') ∧
      (putField { entry with id := 2 }).on c' = (.ok 2, c')) ∧
    (∃ id c', (putField entry).on c = (.ok id, c') ∧
      c'.fields.rows = c.fields.rows ++ [{ entry with id }]) ∧
    (putField { entry with categoryid := 1 }).on c =
      (.error (.persistence "FOREIGN KEY constraint failed"), c) := by
  intro c row entry
  obtain ⟨hreplace, hadd, hfields, hrefused⟩ := put_outcomes c
  refine ⟨?_, ?_, ?_, ?_, hrefused _ (by decide)⟩
  · obtain ⟨c', hput, hread, -, hfields, -⟩ := hreplace row (by decide)
    exact ⟨c', hput, hread, hfields⟩
  · obtain ⟨id, c', hput, hadds, -, hword⟩ := hadd { row with id := 0 } rfl
    exact ⟨id, c', hput, hadds.rows, hword (by decide) (by decide)⟩
  · obtain ⟨c', hput, -, -, -, hagain⟩ := (hfields { entry with id := 2 } (by decide)).1 (by decide)
    exact ⟨c', hput, hagain⟩
  · obtain ⟨id, c', hput, hadds, -⟩ := (hfields entry (by decide)).2 rfl
    exact ⟨id, c', hput, hadds.rows⟩

end Statement

end FieldCatalog
