import FieldCatalog.Catalog.Field
import FieldCatalog.Proofs.Catalog.CategoryEffect

/-!
# What the operations on fields do

As with categories, an operation on fields either answers a failure that its arguments deserve and
changes nothing, or does one thing to the table and settles the listings it has touched.

## Main definitions

* `Contents.newField`: the row of a new field
* `Contents.withField`, `Contents.withoutField`: one field more or less
* `Contents.destination`: the category that a dragged field goes to

## Main results

* `Statement.on_addField`, `Statement.on_removeField`, `Statement.on_shiftField`: the operations
* `Statement.on_carryField_self`, `Statement.on_carryField_of_ne`: a drag within a category, and
  one into another category
* `Statement.on_repositionField_of_ok`: where a dragged field goes
-/

namespace FieldCatalog

namespace Contents

variable {c : Contents} {now : Int}

/-- The row of a new field before it has been given its position. -/
def newField (c : Contents) (categoryid : Id) (draft : Draft) (configdata : String) (now : Int) :
    Field where
  id := c.fields.nextKey
  shortname := draft.shortname
  name := draft.name
  type := draft.type
  description := draft.description
  categoryid := categoryid
  sortorder := -1
  configdata := configdata
  timecreated := now
  timemodified := now

/-- The contents with a field in the stead of the one of the same number. -/
def withField (c : Contents) (row : Field) : Contents :=
  { c with fields := c.fields.put row }

/-- The contents without a field. -/
def withoutField (c : Contents) (id : Id) : Contents :=
  { c with fields := c.fields.erase id }

/-- The category `home` for a field: its own, or an existing one of the same area. -/
def reachable (c : Contents) (field : Field) (home : Id) : Except Failure Id :=
  if home = field.categoryid then .ok home
  else match c.category? home, c.category? field.categoryid with
    | none, _ => .error (.invalidScope ("category " ++ toString home ++ " does not exist"))
    | some _, none => .error (.notFound .category field.categoryid)
    | some category, some own =>
      if own.area = category.area then .ok home
      else .error (.invalidScope
        ("field " ++ toString field.id ++ " belongs to " ++ own.area.display ++
          " and cannot move to " ++ category.area.display))

/-- The category that a dragged field goes to: the one that is named, else that of its target, else
its own. The target must exist and stand there. -/
def destination (c : Contents) (field : Field) (categoryid : Option Id) :
    Option Id → Except Failure Id
  | none => c.reachable field (categoryid.getD field.categoryid)
  | some target =>
    match c.field? target with
    | none => .error (.invalidTarget field.id target)
    | some row =>
      if categoryid.getD row.categoryid = row.categoryid then c.reachable field row.categoryid
      else .error (.invalidTarget field.id target)

theorem mem_list_withField {row : Field} {id : Id} {m : Member} :
    m ∈ (c.withField row).list (.fields id) ↔
      (row.categoryid = id ∧ m = row.member) ∨ (m ∈ c.list (.fields id) ∧ m.id ≠ row.id) := by
  simp only [mem_list_fields, withField, Table.mem_put]
  constructor
  · rintro ⟨other, rfl | ⟨hother, hne⟩, rfl, rfl⟩
    · exact .inl ⟨rfl, rfl⟩
    · exact .inr ⟨⟨other, hother, rfl, rfl⟩, hne⟩
  · rintro (⟨rfl, rfl⟩ | ⟨⟨other, hother, rfl, rfl⟩, hne⟩)
    · exact ⟨row, .inl rfl, rfl, rfl⟩
    · exact ⟨other, .inr ⟨hother, hne⟩, rfl, rfl⟩

theorem field?_withField (row : Field) : (c.withField row).field? row.id = some row :=
  field?_eq_some_iff.mpr ⟨Table.mem_put.mpr (.inl rfl), rfl⟩

/-- The number of a new field is not in use. -/
theorem ne_nextKey_of_mem_list_fields {id : Id} {m : Member} (hm : m ∈ c.list (.fields id)) :
    m.id ≠ c.fields.nextKey := by
  obtain ⟨row, hrow, -, rfl⟩ := mem_list_fields.mp hm
  exact Int.ne_of_lt (Table.lt_nextKey hrow)

/-- The listing of a category with a new field holds one entry more. -/
theorem mem_list_withField_of_new {row : Field} (hrow : row.id = c.fields.nextKey) (m : Member) :
    m ∈ (c.withField row).list (.fields row.categoryid) ↔
      m = row.member ∨ m ∈ c.list (.fields row.categoryid) := by
  rw [mem_list_withField]
  exact or_congr (and_iff_right rfl)
    (and_iff_left_of_imp fun hm => hrow ▸ ne_nextKey_of_mem_list_fields hm)

/-- The listing of a category with a new field, but for the new field. -/
theorem siblings_withField {row : Field} (hrow : row.id = c.fields.nextKey) :
    ((c.withField row).list (.fields row.categoryid)).filter (fun m => m.id != row.member.id) =
      c.list (.fields row.categoryid) := by
  apply filter_list_of_mem_iff (c.pairwise_list _)
  · intro m hm
    have hne := ne_nextKey_of_mem_list_fields hm
    rw [← hrow] at hne
    exact hne
  · exact mem_list_withField_of_new hrow

theorem perm_list_withField (row : Field) (hrow : row.id = c.fields.nextKey) :
    (c.list (.fields row.categoryid) ++ [row.member]).Perm
      ((c.withField row).list (.fields row.categoryid)) := by
  apply perm_list_of_mem_iff (c.nodup_list _)
  · intro hm
    exact ne_nextKey_of_mem_list_fields hm hrow
  · exact mem_list_withField_of_new hrow

theorem mem_list_withoutField {id home : Id} {m : Member} :
    m ∈ (c.withoutField id).list (.fields home) ↔ m ∈ c.list (.fields home) ∧ m.id ≠ id := by
  simp only [mem_list_fields, withoutField, Table.mem_erase]
  constructor
  · rintro ⟨row, ⟨hrow, hne⟩, rfl, rfl⟩
    exact ⟨⟨row, hrow, rfl, rfl⟩, hne⟩
  · rintro ⟨⟨row, hrow, rfl, rfl⟩, hne⟩
    exact ⟨row, ⟨hrow, hne⟩, rfl, rfl⟩

end Contents

namespace Statement

open Contents

variable {c : Contents} {now : Int} {id : Id}

/-- A field that has just been stored is settled behind the others of its category. -/
theorem on_append_withField (row : Field) (hid : row.id = c.fields.nextKey)
    (hpos : row.sortorder < 0) :
    (Listing.append now (.fields row.categoryid) row.id).on (c.withField row) =
      (.ok (c.list (.fields row.categoryid)).length, (c.withField row).settle now .field
        (c.list (.fields row.categoryid) ++ [row.member])) := by
  have hmem : row.member ∈ (c.withField row).list (.fields row.categoryid) :=
    mem_list_withField.mpr (.inl ⟨rfl, rfl⟩)
  have happend := Listing.on_append now hmem (by
    show row.sortorder ≠ _
    omega)
  rw [siblings_withField hid] at happend
  exact happend

/-- The row of a new field once it has been given its position. -/
theorem field?_settle_withField (row : Field) (hid : row.id = c.fields.nextKey)
    (hpos : row.sortorder < 0) (hnow : row.timemodified = now) :
    ((c.withField row).settle now .field
      (c.list (.fields row.categoryid) ++ [row.member])).field? row.id =
        some { row with sortorder := (c.list (.fields row.categoryid)).length } := by
  have hlast : Listing.rankIn 0 (c.list (.fields row.categoryid) ++ [row.member]) row.member =
      (c.list (.fields row.categoryid)).length := by
    apply Listing.rankIn_append_singleton
    intro m hm
    have hne := ne_nextKey_of_mem_list_fields hm
    rw [← hid] at hne
    exact hne
  have hne : row.sortorder ≠ (c.list (.fields row.categoryid)).length := by omega
  subst hnow
  rw [field?_settle_field, field?_withField, Option.map_some, hlast,
    Field.moveTo, if_neg hne]

/-- A new field stands behind the others of its category. The category must exist, and the short
name must be free in its area. -/
theorem on_addField {categoryid : Id} {draft : Draft} {configdata : String} :
    (addField categoryid draft configdata now).on c = match c.category? categoryid with
      | none =>
        (.error (.invalidScope ("category " ++ toString categoryid ++ " does not exist")), c)
      | some home =>
        if (c.fieldByShortname home.area draft.shortname).isSome then
          (.error (.invalidField
            ("shortname '" ++ draft.shortname ++ "' is already used in " ++ home.area.display)), c)
        else
          (.ok { c.newField categoryid draft configdata now with
              sortorder := (c.list (.fields categoryid)).length },
            (c.withField (c.newField categoryid draft configdata now)).settle now .field
              (c.list (.fields categoryid) ++
                [(c.newField categoryid draft configdata now).member])) := by
  cases hcat : c.category? categoryid with
  | none =>
    have hhas : c.hasCategory categoryid = false := by rw [hasCategory, hcat]; rfl
    simp only [addField, Listing.check, on_bind, on_get, hhas, Bool.false_eq_true, if_false, on_throw]
  | some home =>
    have hhas : c.hasCategory categoryid = true := by rw [hasCategory, hcat]; rfl
    -- The field is stored under a new number, and then it is found under this number.
    have hput : (putField
        { id := 0, shortname := draft.shortname, name := draft.name, type := draft.type,
          description := draft.description, categoryid, sortorder := -1, configdata,
          timecreated := now, timemodified := now }).on c =
        (.ok (c.newField categoryid draft configdata now).id,
          c.withField (c.newField categoryid draft configdata now)) := by
      rw [on_putField]
      exact if_pos hhas
    have hpos : (c.newField categoryid draft configdata now).sortorder < 0 :=
      Int.negSucc_lt_zero 0
    have hnow : (c.newField categoryid draft configdata now).timemodified = now := rfl
    have happend : (Listing.append now (.fields categoryid)
        (c.newField categoryid draft configdata now).id).on
          (c.withField (c.newField categoryid draft configdata now)) = _ :=
      on_append_withField (c.newField categoryid draft configdata now) rfl hpos
    simp only [addField, Listing.check, Listing.areaOf, on_bind, on_get, hhas, if_true, on_pure,
      on_category, hcat]
    split
    · rfl
    · simp only [on_bind, hput, happend, on_field, field?_settle_withField _ rfl hpos hnow]
      rfl

theorem mem_ids_of_field? {old : Field} (h : c.field? id = some old) :
    id ∈ (c.list (.fields old.categoryid)).map Member.id := by
  obtain ⟨hmem, rfl⟩ := field?_eq_some_iff.mp h
  exact List.mem_map.mpr ⟨old.member, mem_list_fields.mpr ⟨old, hmem, rfl, rfl⟩, rfl⟩

theorem on_removeField :
    (removeField id now).on c = match c.field? id with
      | none => (.ok false, c)
      | some old => (.ok true,
          (c.withoutField id).settle now .field
            ((c.withoutField id).list (.fields old.categoryid))) := by
  simp only [removeField, on_bind, on_get]
  cases h : c.field? id with
  | none => rfl
  | some old =>
    simp only [on_bind, on_delete_field, Listing.on_renumber, on_pure]
    rfl

theorem on_shiftField {direction : Direction} :
    (shiftField id direction now).on c = match c.field? id with
      | none => (.error (.notFound .field id), c)
      | some old =>
        match Listing.exchanged (Listing.ranked (c.list (.fields old.categoryid))) id direction with
        | none => (.ok false, c.settle now .field (c.list (.fields old.categoryid)))
        | some order => (.ok true,
            (c.settle now .field (c.list (.fields old.categoryid))).settle now .field order) := by
  simp only [shiftField, Listing.ofField, on_bind, on_field]
  cases h : c.field? id with
  | none => rfl
  | some old => exact Listing.on_swapAdjacent (mem_ids_of_field? h)

/-! ## Drags -/

theorem on_carryField_of_error {field : Field} {home : Id} {before : Option Id} {e : Failure}
    (hr : c.reachable field home = .error e) :
    (carryField field.id (.fields field.categoryid) (.fields home) before now).on c = (.error e, c) := by
  unfold reachable at hr
  split at hr
  · cases hr
  · next hne =>
    have hne' : Scope.fields home ≠ .fields field.categoryid := fun e => hne (Scope.fields.inj e)
    simp only [carryField, if_neg hne', Listing.check, Listing.areaOf, on_bind, on_get, hasCategory,
      on_category]
    split at hr
    · next hhome =>
      cases hr
      simp only [hhome, Option.isSome_none, Bool.false_eq_true, if_false, on_throw]
    · next hhome hown =>
      cases hr
      simp only [hhome, hown, Option.isSome_some, if_true, on_pure]
    · next category own hhome hown =>
      split at hr
      · cases hr
      · next harea =>
        cases hr
        simp only [hhome, hown, Option.isSome_some, if_true, on_pure, if_neg harea, on_throw]

/-- A drag within a category settles the new order. -/
theorem on_carryField_self (now : Int) {field : Field} {before : Option Id}
    (h : c.field? field.id = some field) (hb : ∀ t, Listing.target before = some t →
      t ∈ (c.list (.fields field.categoryid)).map Member.id) :
    ∃ order, Listing.dragged (c.list (.fields field.categoryid)) field.id
        (Listing.target before) = some order ∧
      (carryField field.id (.fields field.categoryid) (.fields field.categoryid) before now).on c =
        (.ok (), c.settle now .field order) := by
  obtain ⟨order, ho⟩ := Listing.exists_dragged field.id hb
  refine ⟨order, ho, ?_⟩
  rw [carryField, if_pos rfl]
  exact Listing.on_moveBefore_of_dragged (mem_ids_of_field? h) ho

/-- A drag into another category settles the new order there, and then the category that the field
has left. -/
theorem on_carryField_of_ne (now : Int) {field : Field} {home : Id} {before : Option Id}
    (h : c.field? field.id = some field) (hr : c.reachable field home = .ok home)
    (hne : home ≠ field.categoryid)
    (hb : ∀ t, Listing.target before = some t → t ∈ (c.list (.fields home)).map Member.id) :
    ∃ order, Listing.dragged ((c.rehome field.id home now).list (.fields home)) field.id
        (Listing.target before) = some order ∧
      (carryField field.id (.fields field.categoryid) (.fields home) before now).on c =
        (.ok (), ((c.rehome field.id home now).settle now .field order).settle now .field
          (((c.rehome field.id home now).settle now .field order).list
            (.fields field.categoryid))) := by
  unfold reachable at hr
  rw [if_neg hne] at hr
  -- Only an existing category of the same area is reachable, and then no check fails.
  split at hr
  · cases hr
  · cases hr
  · next category own hhome hown =>
    have harea : own.area = category.area := by
      by_contra harea
      rw [if_neg harea] at hr
      cases hr
    have hhas : c.hasCategory home = true := by rw [hasCategory, hhome]; rfl
    obtain ⟨order, ho, hacross⟩ :=
      Listing.on_moveAcross now (.fields field.categoryid) h hhas hb
    refine ⟨order, ho, ?_⟩
    have hne' : Scope.fields home ≠ .fields field.categoryid := fun e => hne (Scope.fields.inj e)
    simp only [carryField, if_neg hne', Listing.check, Listing.areaOf, on_bind, on_get, hhas, if_true,
      on_pure, on_category, hhome, hown, harea, hacross, Scope.kind]

/-- The scope that a drag to a target goes to is the one of the target exactly when no other
category is named. -/
theorem scope_of_target {categoryid : Option Id} {home : Id} {own : Scope} :
    (categoryid.map Scope.fields <|> some (Scope.fields home)).getD own = .fields home ↔
      categoryid.getD home = home := by
  cases categoryid with
  | none => exact iff_of_true rfl rfl
  | some named => exact Scope.fields.injEq named home ▸ Iff.rfl

theorem on_repositionField_of_none {categoryid before : Option Id} (h : c.field? id = none) :
    (repositionField id categoryid before now).on c = (.error (.notFound .field id), c) := by
  simp only [repositionField, Listing.ofField, on_bind, on_field, h]

theorem on_repositionField_of_error {field : Field} {categoryid before : Option Id} {e : Failure}
    (h : c.field? id = some field) (he : c.destination field categoryid before = .error e) :
    (repositionField id categoryid before now).on c = (.error e, c) := by
  obtain ⟨-, rfl⟩ := field?_eq_some_iff.mp h
  simp only [repositionField, Listing.ofField, on_bind, on_field, h, on_pure, Field.scope]
  cases before with
  | none =>
    rw [destination] at he
    cases categoryid <;> exact on_carryField_of_error he
  | some target =>
    rw [destination] at he
    simp only [targetScope, on_bind, on_get]
    cases ht : c.field? target with
    | none =>
      rw [ht] at he
      cases he
      rfl
    | some row =>
      simp only [ht] at he
      simp only [on_pure, on_bind, on_ofResult, Scope.ensureSame, Field.scope]
      split at he
      · next hsame =>
        -- The target stands in the category of the drag, which cannot be reached.
        simp only [scope_of_target.mpr hsame, if_true, on_carryField_of_error he]
      · next hsame =>
        -- The target stands in another category than the one that is named.
        simp only [if_neg fun e => hsame (scope_of_target.mp e)]
        cases he
        rfl

/-- A category that can be reached is answered as it was given. -/
theorem eq_of_reachable {field : Field} {home home' : Id}
    (h : c.reachable field home = .ok home') : home = home' := by
  unfold reachable at h
  repeat' split at h
  all_goals cases h
  all_goals rfl

/-- A field with a destination is carried there, and its target, if it has one, stands there. -/
theorem on_repositionField_of_ok (now : Int) {field : Field} {categoryid before : Option Id}
    {home : Id} (h : c.field? id = some field) (hd : c.destination field categoryid before = .ok home) :
    (repositionField id categoryid before now).on c =
        (carryField id field.scope (.fields home) before now).on c ∧
      c.reachable field home = .ok home ∧
      ∀ target, before = some target → target ∈ (c.list (.fields home)).map Member.id := by
  simp only [repositionField, Listing.ofField, on_bind, on_field, h, on_pure]
  cases before with
  | none =>
    rw [destination] at hd
    have hhome := eq_of_reachable hd
    refine ⟨?_, hhome ▸ hd, fun target ht => by cases ht⟩
    cases categoryid with
    | none => rw [← hhome]; rfl
    | some home' => rw [← hhome]; rfl
  | some target =>
    rw [destination] at hd
    simp only [targetScope, on_bind, on_get]
    cases ht : c.field? target with
    | none =>
      rw [ht] at hd
      cases hd
    | some row =>
      simp only [ht] at hd
      split at hd
      · next hsame =>
        obtain rfl := eq_of_reachable hd
        have hdest : (categoryid.map Scope.fields <|> some row.scope).getD field.scope =
            .fields row.categoryid := scope_of_target.mpr hsame
        have hok : (Scope.fields row.categoryid).ensureSame row.scope id target = .ok () :=
          if_pos rfl
        refine ⟨?_, hd, fun t he => ?_⟩
        · simp only [on_pure, on_bind, on_ofResult, hdest, hok]
        · cases he
          exact mem_ids_of_field? ht
      · cases hd

end Statement

end FieldCatalog
