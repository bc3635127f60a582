import FieldCatalog.Proofs.Catalog.Isolation

/-!
# The part of a catalog in an area

The part of the contents in an area consists of the categories of the area and of the fields that
lie in them. Whatever belongs to the area can be looked up there as in the whole, and what is done to
an entry of the area in the whole is done to the same entry in the part. If every field lies in a
category, the parts make up the whole.

## Main definitions

* `Contents.part`: the part of the contents in an area

## Main results

* `Contents.list_part`, `Contents.entryArea?_part`: the listings and the entries of the area
* `Contents.part_settle` and its siblings: what is done to the whole is done to the part
* `Contents.SameOutside.part_eq`: a change in one area leaves the parts in the others alone
* `Contents.eq_of_part_eq`: contents that agree in every area are equal
-/

namespace FieldCatalog

namespace Contents

variable {c c' : Contents} {area other : Area} {kind : Kind} {scope : Scope} {id : Id}

/-- The categories of an area, with the fields that lie in them. -/
def part (c : Contents) (area : Area) : Contents where
  categories := c.categories.eraseWhere fun row => row.area ≠ area
  fields := c.fields.eraseWhere fun row => c.areaOf? row.scope ≠ some area

theorem mem_categories_part {row : Category} :
    row ∈ (c.part area).categories ↔ row ∈ c.categories ∧ row.area = area :=
  Table.mem_eraseWhere.trans (and_congr_right fun _ => decide_eq_false_iff_not.trans not_not)

theorem mem_fields_part {row : Field} :
    row ∈ (c.part area).fields ↔
      row ∈ c.fields ∧ c.areaOf? (.fields row.categoryid) = some area :=
  Table.mem_eraseWhere.trans (and_congr_right fun _ => decide_eq_false_iff_not.trans not_not)

/-- Contents with the rows of a part are that part. -/
theorem eq_part (hcategories : ∀ row, row ∈ c'.categories ↔ row ∈ c.categories ∧ row.area = area)
    (hfields : ∀ row, row ∈ c'.fields ↔
      row ∈ c.fields ∧ c.areaOf? (.fields row.categoryid) = some area) : c.part area = c' :=
  Contents.ext
    (Table.eq_of_mem_iff fun row => mem_categories_part.trans (hcategories row).symm)
    (Table.eq_of_mem_iff fun row => mem_fields_part.trans (hfields row).symm)

/-! ## Looking things up -/

/-- The listings of an area belong to its part. -/
theorem areaOf?_part : (c.part area).areaOf? scope = some area ↔ c.areaOf? scope = some area := by
  cases scope with
  | categories own => exact Iff.rfl
  | fields id =>
    simp only [areaOf?_fields_eq_some_iff, mem_categories_part]
    refine exists_congr fun home => ?_
    rw [and_assoc]
    exact and_congr_right fun _ => ⟨fun h => h.2, fun h => ⟨h.2, h⟩⟩

theorem category?_part (h : c.areaOf? (.fields id) = some area) :
    (c.part area).category? id = c.category? id := by
  obtain ⟨row, hrow, harea⟩ := category?_of_areaOf? h
  obtain ⟨hmem, hid⟩ := category?_eq_some_iff.mp hrow
  rw [hrow]
  exact category?_eq_some_iff.mpr ⟨mem_categories_part.mpr ⟨hmem, harea⟩, hid⟩

theorem field?_of_entryArea? (h : c.entryArea? .field id = some area) :
    ∃ row, c.field? id = some row ∧ c.areaOf? (.fields row.categoryid) = some area :=
  Option.bind_eq_some_iff.mp h

theorem field?_part (h : c.entryArea? .field id = some area) :
    (c.part area).field? id = c.field? id := by
  obtain ⟨row, hrow, harea⟩ := field?_of_entryArea? h
  obtain ⟨hmem, hid⟩ := field?_eq_some_iff.mp hrow
  rw [hrow]
  exact field?_eq_some_iff.mpr ⟨mem_fields_part.mpr ⟨hmem, harea⟩, hid⟩

/-- The entries of an area belong to its part. -/
theorem entryArea?_part :
    (c.part area).entryArea? kind id = some area ↔ c.entryArea? kind id = some area := by
  cases kind with
  | category =>
    exact (areaOf?_part : (c.part area).areaOf? (.fields id) = some area ↔ _)
  | field =>
    constructor
    · intro h
      obtain ⟨row, hrow, harea⟩ := field?_of_entryArea? h
      obtain ⟨hmem, hid⟩ := field?_eq_some_iff.mp hrow
      rw [entryArea?_field (field?_eq_some_iff.mpr ⟨(mem_fields_part.mp hmem).1, hid⟩)]
      exact areaOf?_part.mp harea
    · intro h
      obtain ⟨row, hrow, harea⟩ := field?_of_entryArea? h
      rw [entryArea?_field ((field?_part h).trans hrow)]
      exact areaOf?_part.mpr harea

/-- The listings of an area are those of its part. -/
theorem list_part (h : c.areaOf? scope = some area) : (c.part area).list scope = c.list scope := by
  refine list_congr fun m => ?_
  cases scope with
  | categories own =>
    obtain rfl : own = area := Option.some.inj h
    simp only [mem_list_categories, mem_categories_part]
    constructor
    · rintro ⟨row, ⟨hmem, -⟩, hrow⟩
      exact ⟨row, hmem, hrow⟩
    · rintro ⟨row, hmem, harea, hrow⟩
      exact ⟨row, ⟨hmem, harea⟩, harea, hrow⟩
  | fields id =>
    simp only [mem_list_fields, mem_fields_part]
    constructor
    · rintro ⟨row, ⟨hmem, -⟩, hrow⟩
      exact ⟨row, hmem, hrow⟩
    · rintro ⟨row, hmem, rfl, hrow⟩
      exact ⟨row, ⟨hmem, h⟩, rfl, hrow⟩

theorem categoriesOf_part : (c.part area).categoriesOf area = c.categoriesOf area := by
  simp [categoriesOf, part, Table.eraseWhere, List.filter_filter]

theorem Positive.part (h : c.Positive) (area : Area) : (c.part area).Positive where
  categories row hrow := h.categories row (mem_categories_part.mp hrow).1
  fields row hrow := h.fields row (mem_fields_part.mp hrow).1

/-! ## Doing things -/

/-- Settling an order in the whole settles it in the part. -/
theorem part_settle (now : Int) (kind : Kind) (order : List Member) :
    (c.settle now kind order).part area = (c.part area).settle now kind order := by
  have hareas := (rearranged_settle c now kind order).areaOf?_eq
  cases kind with
  | category =>
    refine eq_part (fun row => ?_) fun row => ?_
    · simp only [settle, settleFrom, moveAll, Table.mem_mapRows, mem_categories_part]
      constructor
      · rintro ⟨old, ⟨hmem, rfl⟩, rfl⟩
        exact ⟨⟨old, hmem, rfl⟩, Category.area_moveTo now _ old⟩
      · rintro ⟨⟨old, hmem, rfl⟩, harea⟩
        exact ⟨old, ⟨hmem, (Category.area_moveTo now _ old).symm.trans harea⟩, rfl⟩
    · rw [hareas]
      exact mem_fields_part
  | field =>
    refine eq_part (fun row => mem_categories_part) fun row => ?_
    rw [hareas]
    simp only [settle, settleFrom, moveAll, Table.mem_mapRows, mem_fields_part]
    constructor
    · rintro ⟨old, ⟨hmem, harea⟩, rfl⟩
      rw [Field.categoryid_moveTo]
      exact ⟨⟨old, hmem, rfl⟩, harea⟩
    · rintro ⟨⟨old, hmem, rfl⟩, harea⟩
      rw [Field.categoryid_moveTo] at harea
      exact ⟨old, ⟨hmem, harea⟩, rfl⟩

/-- A category of the area that is stored again in the whole is stored again in the part. -/
theorem part_withCategory {row old : Category} (hold : c.category? row.id = some old)
    (harea : row.area = old.area) (belongs : row.area = area) :
    (c.withCategory row).part area = (c.part area).withCategory row := by
  refine eq_part (fun x => ?_) fun x => ?_
  · rw [mem_withCategory, mem_withCategory, mem_categories_part, or_and_right, and_right_comm]
    refine or_congr_left (and_iff_left_of_imp ?_).symm
    rintro rfl
    exact belongs
  · rw [areaOf?_withCategory_of_found hold harea]
    exact mem_fields_part

/-- A category that is deleted from the whole is deleted from the part. -/
theorem part_withoutCategory (id : Id) :
    (c.withoutCategory id).part area = (c.part area).withoutCategory id := by
  refine eq_part (fun row => ?_) fun row => ?_
  · simp only [withoutCategory, Table.mem_erase, mem_categories_part]
    exact and_right_comm
  · -- The fields that are left lie in other categories, whose areas have not changed.
    simp only [withoutCategory, Table.mem_eraseWhere, mem_fields_part, beq_eq_false_iff_ne]
    rw [and_right_comm]
    refine and_congr_right fun hrow => ?_
    have harea : (c.withoutCategory id).areaOf? (.fields row.categoryid) =
        c.areaOf? (.fields row.categoryid) :=
      congrArg (Option.map Category.area) (category?_withoutCategory_of_ne hrow.2)
    exact (congrArg (· = some area) harea).symm.to_iff

/-- A field that is put into a category of the area in the whole is put there in the part. -/
theorem part_withField {row : Field} (belongs : c.areaOf? (.fields row.categoryid) = some area) :
    (c.withField row).part area = (c.part area).withField row := by
  refine eq_part (fun x => mem_categories_part) fun x => ?_
  rw [mem_withField, mem_withField, mem_fields_part, or_and_right, and_right_comm]
  refine or_congr_left (and_iff_left_of_imp ?_).symm
  rintro rfl
  exact belongs

/-- A field that is deleted from the whole is deleted from the part. -/
theorem part_withoutField (id : Id) :
    (c.withoutField id).part area = (c.part area).withoutField id := by
  refine eq_part (fun row => mem_categories_part) fun row => ?_
  simp only [withoutField, Table.mem_erase, mem_fields_part]
  exact and_right_comm

/-- A field of the area that changes its category within the area does so in the part. -/
theorem part_rehome {home : Id} (now : Int) (h : c.entryArea? .field id = some area)
    (hhome : c.areaOf? (.fields home) = some area) :
    (c.rehome id home now).part area = (c.part area).rehome id home now := by
  obtain ⟨field, hfield, harea⟩ := field?_of_entryArea? h
  obtain ⟨hmem, rfl⟩ := field?_eq_some_iff.mp hfield
  refine eq_part (fun x => mem_categories_part) fun x => ?_
  simp only [mem_rehome, mem_fields_part]
  constructor
  · rintro (⟨⟨hx, harea⟩, hne⟩ | ⟨row, ⟨hrow, -⟩, hid, rfl⟩)
    · exact ⟨.inl ⟨hx, hne⟩, harea⟩
    · exact ⟨.inr ⟨row, hrow, hid, rfl⟩, hhome⟩
  · rintro ⟨⟨hx, hne⟩ | ⟨row, hrow, hid, rfl⟩, hx'⟩
    · exact .inl ⟨⟨hx, hx'⟩, hne⟩
    · obtain rfl := Table.eq_of_key_eq hrow hmem hid
      exact .inr ⟨row, ⟨hrow, harea⟩, rfl, rfl⟩

/-! ## Parts and the whole -/

/-- What has changed in one area only is the same in the part of every other. -/
theorem SameOutside.part_eq (h : c.SameOutside (some area) c') (hne : other ≠ area) :
    c'.part other = c.part other := by
  have hne' : some other ≠ some area := fun he => hne (Option.some.inj he)
  refine eq_part (fun row => mem_categories_part.trans ?_) fun row => mem_fields_part.trans ?_
  · refine and_congr_left fun harea => (h.category row ?_).symm
    rwa [harea]
  · exact (h.field row other hne').symm

/-- Contents in which every field lies in a category are made up of their parts. -/
theorem eq_of_part_eq (hc : c.Referential) (hc' : c'.Referential)
    (h : ∀ area, c.part area = c'.part area) : c = c' := by
  have covered {d : Contents} (hd : d.Referential) {row : Field} (hrow : row ∈ d.fields) :
      ∃ area, row ∈ (d.part area).fields := by
    obtain ⟨area, harea⟩ := hd.areaOf?_eq_some (field?_eq_some_iff.mpr ⟨hrow, rfl⟩)
    exact ⟨area, mem_fields_part.mpr ⟨hrow, harea⟩⟩
  refine Contents.ext (Table.eq_of_mem_iff fun row => ?_) (Table.eq_of_mem_iff fun row => ?_)
  · have hrow : row ∈ (c.part row.area).categories ↔ row ∈ (c'.part row.area).categories := by
      rw [h]
    simpa [mem_categories_part] using hrow
  · constructor
    · intro hrow
      obtain ⟨area, hpart⟩ := covered hc hrow
      exact (mem_fields_part.mp (h area ▸ hpart)).1
    · intro hrow
      obtain ⟨area, hpart⟩ := covered hc' hrow
      exact (mem_fields_part.mp ((h area).symm ▸ hpart)).1

end Contents

end FieldCatalog
