import FieldCatalog.Catalog.Category
import FieldCatalog.Proofs.Listing.Resequencing

/-!
# What the operations on categories do

Each operation on categories either answers a failure that its arguments deserve and changes
nothing, or does one thing to the table and settles the listing of the area.

## Main definitions

* `Contents.newCategory`: the row of a new category
* `Contents.withCategory`, `Contents.withoutCategory`: one category more or less
* `Contents.admits`: whether a category may be put before another

## Main results

* `Statement.on_addCategory`, `Statement.on_retitleCategory`, `Statement.on_removeCategory`,
  `Statement.on_shiftCategory`, `Statement.on_repositionCategory`: the operations
-/

namespace FieldCatalog

namespace Contents

variable {c : Contents} {now : Int}

/-- The row of a new category before it has been given its position. -/
def newCategory (c : Contents) (area : Area) (name : Option String) (now : Int) : Category where
  id := c.categories.nextKey
  name := Naming.chosen (c.categoryNames area) name
  description := ""
  area := area
  sortorder := -1
  timecreated := now
  timemodified := now

/-- The contents with a category in the stead of the one of the same number. -/
def withCategory (c : Contents) (row : Category) : Contents :=
  { c with categories := c.categories.put row }

/-- The contents without a category and its fields. -/
def withoutCategory (c : Contents) (id : Id) : Contents where
  categories := c.categories.erase id
  fields := c.fields.eraseWhere fun row => row.categoryid == id

/-- Whether a category may be put before the one of the given number, which must exist in its
area. -/
def admits (c : Contents) (row : Category) : Option Id → Except Failure Unit
  | none => .ok ()
  | some target =>
    match c.category? target with
    | none => .error (.invalidTarget row.id target)
    | some other => row.scope.ensureSame other.scope row.id target

theorem admits_eq_ok_iff {row : Category} {before : Option Id} :
    c.admits row before = .ok () ↔
      ∀ target, before = some target →
        ∃ other, c.category? target = some other ∧ other.area = row.area := by
  cases before with
  | none => exact iff_of_true rfl fun target h => by cases h
  | some target =>
    rw [admits]
    cases ht : c.category? target with
    | none => simp [ht]
    | some other => simp [ht, Scope.ensureSame, Category.scope, eq_comm]

theorem mem_list_withCategory {row : Category} {area : Area} {m : Member} :
    m ∈ (c.withCategory row).list (.categories area) ↔
      (row.area = area ∧ m = row.member) ∨ (m ∈ c.list (.categories area) ∧ m.id ≠ row.id) := by
  simp only [mem_list_categories, withCategory, Table.mem_put]
  constructor
  · rintro ⟨other, rfl | ⟨hother, hne⟩, rfl, rfl⟩
    · exact .inl ⟨rfl, rfl⟩
    · exact .inr ⟨⟨other, hother, rfl, rfl⟩, hne⟩
  · rintro (⟨rfl, rfl⟩ | ⟨⟨other, hother, rfl, rfl⟩, hne⟩)
    · exact ⟨row, .inl rfl, rfl, rfl⟩
    · exact ⟨other, .inr ⟨hother, hne⟩, rfl, rfl⟩

theorem category?_withCategory (row : Category) : (c.withCategory row).category? row.id = some row :=
  category?_eq_some_iff.mpr ⟨Table.mem_put.mpr (.inl rfl), rfl⟩

/-- The number of a new category is not in use. -/
theorem ne_nextKey_of_mem_list {area : Area} {m : Member} (hm : m ∈ c.list (.categories area)) :
    m.id ≠ c.categories.nextKey := by
  obtain ⟨row, hrow, -, rfl⟩ := mem_list_categories.mp hm
  exact Int.ne_of_lt (Table.lt_nextKey hrow)

/-- The listing of an area with a new category holds one entry more. -/
theorem mem_list_withCategory_of_new {row : Category} (hrow : row.id = c.categories.nextKey)
    (m : Member) : m ∈ (c.withCategory row).list (.categories row.area) ↔
      m = row.member ∨ m ∈ c.list (.categories row.area) := by
  rw [mem_list_withCategory]
  exact or_congr (and_iff_right rfl)
    (and_iff_left_of_imp fun hm => hrow ▸ ne_nextKey_of_mem_list hm)

/-- The listing of an area with a new category, but for the new category. -/
theorem siblings_withCategory {row : Category} (hrow : row.id = c.categories.nextKey) :
    ((c.withCategory row).list (.categories row.area)).filter (fun m => m.id != row.member.id) =
      c.list (.categories row.area) := by
  apply filter_list_of_mem_iff (c.pairwise_list _)
  · intro m hm
    have hne := ne_nextKey_of_mem_list hm
    rw [← hrow] at hne
    exact hne
  · exact mem_list_withCategory_of_new hrow

theorem perm_list_withCategory (row : Category) (hrow : row.id = c.categories.nextKey) :
    (c.list (.categories row.area) ++ [row.member]).Perm
      ((c.withCategory row).list (.categories row.area)) := by
  apply perm_list_of_mem_iff (c.nodup_list _)
  · intro hm
    exact ne_nextKey_of_mem_list hm hrow
  · exact mem_list_withCategory_of_new hrow

theorem mem_list_withoutCategory {id : Id} {area : Area} {m : Member} :
    m ∈ (c.withoutCategory id).list (.categories area) ↔
      m ∈ c.list (.categories area) ∧ m.id ≠ id := by
  simp only [mem_list_categories, withoutCategory, Table.mem_erase]
  constructor
  · rintro ⟨row, ⟨hrow, hne⟩, rfl, rfl⟩
    exact ⟨⟨row, hrow, rfl, rfl⟩, hne⟩
  · rintro ⟨⟨row, hrow, rfl, rfl⟩, hne⟩
    exact ⟨row, ⟨hrow, hne⟩, rfl, rfl⟩

theorem list_fields_withoutCategory {id home : Id} :
    (c.withoutCategory id).list (.fields home) = if home = id then [] else c.list (.fields home) := by
  split
  · next h =>
    refine list_eq .nil fun m => iff_of_false (fun hm => ?_) List.not_mem_nil
    obtain ⟨row, hrow, hhome, -⟩ := mem_list_fields.mp hm
    have := (Table.mem_eraseWhere.mp hrow).2
    simp [hhome, h] at this
  · next h =>
    refine list_congr fun m => ?_
    simp only [mem_list_fields, withoutCategory, Table.mem_eraseWhere]
    constructor
    · rintro ⟨row, ⟨hrow, -⟩, rfl, rfl⟩
      exact ⟨row, hrow, rfl, rfl⟩
    · rintro ⟨row, hrow, rfl, rfl⟩
      exact ⟨row, ⟨hrow, by simpa using h⟩, rfl, rfl⟩

end Contents

namespace Statement

open Contents

variable {c : Contents} {now : Int} {id : Id}

/-- A category that has just been stored is settled behind the others of its area. -/
theorem on_append_withCategory (row : Category) (hid : row.id = c.categories.nextKey)
    (hpos : row.sortorder < 0) :
    (Listing.append now (.categories row.area) row.id).on (c.withCategory row) =
      (.ok (c.list (.categories row.area)).length, (c.withCategory row).settle now .category
        (c.list (.categories row.area) ++ [row.member])) := by
  have hmem : row.member ∈ (c.withCategory row).list (.categories row.area) :=
    mem_list_withCategory.mpr (.inl ⟨rfl, rfl⟩)
  have happend := Listing.on_append now hmem (by
    show row.sortorder ≠ _
    omega)
  rw [siblings_withCategory hid] at happend
  exact happend

/-- The row of a new category once it has been given its position. -/
theorem category?_settle_withCategory (row : Category) (hid : row.id = c.categories.nextKey)
    (hpos : row.sortorder < 0) (hnow : row.timemodified = now) :
    ((c.withCategory row).settle now .category
      (c.list (.categories row.area) ++ [row.member])).category? row.id =
        some { row with sortorder := (c.list (.categories row.area)).length } := by
  have hlast : Listing.rankIn 0 (c.list (.categories row.area) ++ [row.member]) row.member =
      (c.list (.categories row.area)).length := by
    apply Listing.rankIn_append_singleton
    intro m hm
    have hne := ne_nextKey_of_mem_list hm
    rw [← hid] at hne
    exact hne
  have hne : row.sortorder ≠ (c.list (.categories row.area)).length := by omega
  subst hnow
  rw [category?_settle_category, category?_withCategory, Option.map_some, hlast,
    Category.moveTo, if_neg hne]

/-- A new category stands behind the others of its area. -/
theorem on_addCategory {area : Area} {name : Option String} :
    (addCategory area name now).on c =
      (.ok { c.newCategory area name now with sortorder := (c.list (.categories area)).length },
        (c.withCategory (c.newCategory area name now)).settle now .category
          (c.list (.categories area) ++ [(c.newCategory area name now).member])) := by
  -- The category is stored under a new number, and then it is found under this number.
  have hput : (putCategory
      { id := 0, name := Naming.chosen (c.categoryNames area) name, description := "",
        area, sortorder := -1, timecreated := now, timemodified := now }).on c =
      (.ok (c.newCategory area name now).id, c.withCategory (c.newCategory area name now)) :=
    rfl
  have hpos : (c.newCategory area name now).sortorder < 0 := Int.negSucc_lt_zero 0
  have hnow : (c.newCategory area name now).timemodified = now := rfl
  have happend : (Listing.append now (.categories area) (c.newCategory area name now).id).on
      (c.withCategory (c.newCategory area name now)) = _ :=
    on_append_withCategory (c.newCategory area name now) rfl hpos
  simp only [addCategory, on_bind, on_query, hput, happend, on_category,
    category?_settle_withCategory (c.newCategory area name now) rfl hpos hnow]
  rfl

theorem on_retitleCategory {name : String} :
    (retitleCategory id name now).on c = match c.category? id with
      | none => (.error (.notFound .category id), c)
      | some old => (.ok { old with name, timemodified := now },
          c.withCategory (c.storedCategory { old with name, timemodified := now })) := by
  simp only [retitleCategory, on_bind, on_category]
  cases c.category? id with
  | none => rfl
  | some old => simp only [on_putCategory, on_pure, withCategory]

/-- Once its fields are gone, a category that exists can be deleted. -/
theorem on_removeCategory :
    (removeCategory id now).on c = match c.category? id with
      | none => (.ok false, c)
      | some old => (.ok true,
          (c.withoutCategory id).settle now .category
            ((c.withoutCategory id).list (.categories old.area))) := by
  simp only [removeCategory, on_bind, on_get]
  cases h : c.category? id with
  | none => rfl
  | some old =>
    -- The deletion of the fields leaves the category alone, and leaves no field in it.
    have hlook : { c with
        fields := c.fields.eraseWhere fun row => row.categoryid == id }.category? id = some old := h
    have hnone : ((c.fields.eraseWhere fun row => row.categoryid == id).rows.any
        fun row => row.categoryid == id) = false := by
      refine List.any_eq_false.mpr fun row hrow => ?_
      simpa using (Table.mem_eraseWhere.mp (Table.mem_def.mpr hrow)).2
    simp only [on_bind, on_deleteFieldsOf, on_delete_category, hlook, hnone, Bool.false_eq_true,
      if_false, if_true, Category.scope, on_pure, Listing.on_renumber]
    rfl

theorem mem_ids_of_category? {old : Category} (h : c.category? id = some old) :
    id ∈ (c.list (.categories old.area)).map Member.id := by
  obtain ⟨hmem, rfl⟩ := category?_eq_some_iff.mp h
  exact List.mem_map.mpr ⟨old.member, mem_list_categories.mpr ⟨old, hmem, rfl, rfl⟩, rfl⟩

theorem on_shiftCategory {direction : Direction} :
    (shiftCategory id direction now).on c = match c.category? id with
      | none => (.error (.notFound .category id), c)
      | some old =>
        match Listing.exchanged (Listing.ranked (c.list (.categories old.area))) id direction with
        | none => (.ok false, c.settle now .category (c.list (.categories old.area)))
        | some order => (.ok true,
            (c.settle now .category (c.list (.categories old.area))).settle now .category order) := by
  simp only [shiftCategory, Listing.ofCategory, on_bind, on_category]
  cases h : c.category? id with
  | none => rfl
  | some old =>
    exact Listing.on_swapAdjacent (mem_ids_of_category? h)

/-- A category is put before another one of its area only. -/
theorem on_repositionCategory_of_error {old : Category} {before : Option Id} {e : Failure}
    (h : c.category? id = some old) (he : c.admits old before = .error e) :
    (repositionCategory id before now).on c = (.error e, c) := by
  obtain ⟨-, rfl⟩ := category?_eq_some_iff.mp h
  simp only [repositionCategory, Listing.ofCategory, on_bind, on_category, h, on_pure]
  cases before with
  | none => cases he
  | some target =>
    rw [admits] at he
    simp only [on_bind, on_get]
    cases ht : c.category? target with
    | none =>
      rw [ht] at he
      cases he
      rfl
    | some other =>
      rw [ht] at he
      simp only [on_bind, on_ofResult, he]

theorem on_repositionCategory_of_ok (now : Int) {old : Category} {before : Option Id}
    (h : c.category? id = some old) (ha : c.admits old before = .ok ()) :
    ∃ order, Listing.dragged (c.list (.categories old.area)) id (Listing.target before) =
        some order ∧
      (repositionCategory id before now).on c = (.ok (), c.settle now .category order) := by
  -- A target of the same area stands in the listing, so there is an order to settle.
  have hbefore : ∀ t, Listing.target before = some t →
      t ∈ (c.list (.categories old.area)).map Member.id := by
    intro t ht
    obtain ⟨rfl, -⟩ := Option.filter_eq_some_iff.mp ht
    obtain ⟨other, hother, harea⟩ := admits_eq_ok_iff.mp ha t rfl
    exact harea ▸ mem_ids_of_category? hother
  obtain ⟨order, ho⟩ := Listing.exists_dragged id hbefore
  have hmove : (Listing.moveBefore now (.categories old.area) id before).on c =
      (.ok (), c.settle now .category order) :=
    Listing.on_moveBefore_of_dragged (mem_ids_of_category? h) ho
  obtain ⟨-, rfl⟩ := category?_eq_some_iff.mp h
  refine ⟨order, ho, ?_⟩
  simp only [repositionCategory, Listing.ofCategory, on_bind, on_category, h, on_pure]
  cases before with
  | none => exact hmove
  | some target =>
    obtain ⟨other, hother, harea⟩ := admits_eq_ok_iff.mp ha target rfl
    have hsame : old.scope.ensureSame other.scope old.id target = .ok () :=
      if_pos (congrArg Scope.categories harea.symm)
    simp only [on_bind, on_get, hother, on_ofResult, hsame]
    exact hmove

theorem on_repositionCategory_of_none {before : Option Id} (h : c.category? id = none) :
    (repositionCategory id before now).on c = (.error (.notFound .category id), c) := by
  simp only [repositionCategory, Listing.ofCategory, on_bind, on_category, h]

end Statement

end FieldCatalog
