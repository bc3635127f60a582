import FieldCatalog.Store.Statement

/-!
# Running statements

What a statement answers and leaves behind, for each way of building statements and for each of the
statements on single rows.

## Main results

* `Statement.on_bind`: a failing statement ends the sequence and keeps what was written
* `Statement.on_putCategory`, `Statement.on_putField`: stored rows
* `Statement.on_delete_category`, `Statement.on_delete_field`: deleted rows
-/

namespace FieldCatalog

namespace Contents

/-- A category as it is stored: the number zero is replaced by a new one, and a category that is
there already keeps its time of creation. -/
def storedCategory (c : Contents) (category : Category) : Category :=
  if category.id = 0 then { category with id := c.categories.nextKey }
  else match c.category? category.id with
    | some old => { category with timecreated := old.timecreated }
    | none => category

/-- A field as it is stored: the number zero is replaced by a new one, and a field that is there
already keeps its time of creation. -/
def storedField (c : Contents) (field : Field) : Field :=
  if field.id = 0 then { field with id := c.fields.nextKey }
  else match c.field? field.id with
    | some old => { field with timecreated := old.timecreated }
    | none => field

/-- A field is stored in the category that it names. -/
theorem categoryid_storedField (c : Contents) (field : Field) :
    (c.storedField field).categoryid = field.categoryid := by
  unfold storedField
  split
  · rfl
  · split <;> rfl

theorem category?_eq_some_iff {c : Contents} {id : Id} {row : Category} :
    c.category? id = some row ↔ row ∈ c.categories ∧ row.id = id :=
  Table.find?_eq_some_iff

theorem field?_eq_some_iff {c : Contents} {id : Id} {row : Field} :
    c.field? id = some row ↔ row ∈ c.fields ∧ row.id = id :=
  Table.find?_eq_some_iff

theorem hasCategory_iff {c : Contents} {id : Id} :
    c.hasCategory id = true ↔ ∃ row ∈ c.categories, row.id = id := by
  simp only [hasCategory, Option.isSome_iff_exists, category?_eq_some_iff]

end Contents

namespace Statement

variable {α β : Type} {c : Contents}

/-! ## Sequences -/

@[simp] theorem on_pure (a : α) : (pure a : Statement α).on c = (.ok a, c) := rfl

@[simp] theorem on_throw (e : Failure) : (throw e : Statement α).on c = (.error e, c) := rfl

@[simp] theorem on_get : (get : Statement Contents).on c = (.ok c, c) := rfl

@[simp] theorem on_query (f : Contents → α) : (query f).on c = (.ok (f c), c) := rfl

@[simp] theorem on_ofResult (r : Except Failure α) : (ofResult r).on c = (r, c) := rfl

/-- A failing statement ends the sequence and keeps what was written. -/
@[simp] theorem on_bind (s : Statement α) (f : α → Statement β) :
    (s >>= f).on c = match s.on c with
      | (.ok a, c') => (f a).on c'
      | (.error e, c') => (.error e, c') := by
  show ExceptT.bindCont f (s.on c).1 (s.on c).2 = _
  rcases s.on c with ⟨_ | _, _⟩ <;> rfl

/-! ## Rows -/

theorem on_category (id : Id) :
    (category id).on c = match c.category? id with
      | some row => (.ok row, c)
      | none => (.error (.notFound .category id), c) := by
  simp only [category, on_bind, on_get]
  cases c.category? id <;> rfl

theorem on_field (id : Id) :
    (field id).on c = match c.field? id with
      | some row => (.ok row, c)
      | none => (.error (.notFound .field id), c) := by
  simp only [field, on_bind, on_get]
  cases c.field? id <;> rfl

theorem on_putCategory (category : Category) :
    (putCategory category).on c = (.ok (c.storedCategory category).id,
      { c with categories := c.categories.put (c.storedCategory category) }) :=
  rfl

/-- A field is stored if its category exists, and refused without a change otherwise. -/
theorem on_putField (field : Field) :
    (putField field).on c =
      if c.hasCategory (c.storedField field).categoryid then
        (.ok (c.storedField field).id, { c with fields := c.fields.put (c.storedField field) })
      else (.error .danglingReference, c) := by
  simp only [putField, on_bind, on_get]
  show (if c.hasCategory (c.storedField field).categoryid = true then _ else _ : Statement Id).on c = _
  split <;> rfl

theorem on_setSortorder_category (id : Id) (sortorder now : Int) :
    (setSortorder .category id sortorder now).on c = (.ok (c.category? id).isSome,
      { c with
        categories := c.categories.modify id
          (fun row => { row with sortorder, timemodified := now }) fun _ => rfl }) :=
  rfl

theorem on_setSortorder_field (id : Id) (sortorder now : Int) :
    (setSortorder .field id sortorder now).on c = (.ok (c.field? id).isSome,
      { c with
        fields := c.fields.modify id
          (fun row => { row with sortorder, timemodified := now }) fun _ => rfl }) :=
  rfl

theorem on_setCategory (id categoryid : Id) (now : Int) :
    (setCategory id categoryid now).on c = match c.field? id with
      | none => (.ok false, c)
      | some _ =>
        if c.hasCategory categoryid then
          (.ok true, { c with
            fields := c.fields.modify id
              (fun row => { row with categoryid, timemodified := now }) fun _ => rfl })
        else (.error .danglingReference, c) := by
  simp only [setCategory, on_bind, on_get]
  cases c.field? id with
  | none => rfl
  | some row =>
    dsimp only
    split <;> rfl

theorem on_delete_category (id : Id) :
    (delete .category id).on c = match c.category? id with
      | none => (.ok false, c)
      | some _ =>
        if c.fields.rows.any fun row => row.categoryid == id then (.error .danglingReference, c)
        else (.ok true, { c with categories := c.categories.erase id }) := by
  simp only [delete, on_bind, on_get]
  cases c.category? id with
  | none => rfl
  | some row =>
    dsimp only
    split <;> rfl

theorem on_delete_field (id : Id) :
    (delete .field id).on c = (.ok (c.field? id).isSome, { c with fields := c.fields.erase id }) :=
  rfl

theorem on_deleteFieldsOf (categoryid : Id) :
    (deleteFieldsOf categoryid).on c = (.ok (c.count (.fields categoryid)),
      { c with fields := c.fields.eraseWhere fun row => row.categoryid == categoryid }) :=
  rfl

end Statement

end FieldCatalog
