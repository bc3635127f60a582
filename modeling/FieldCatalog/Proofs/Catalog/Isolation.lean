import FieldCatalog.Proofs.Catalog.Validity
import FieldCatalog.Proofs.Session.Lasting

/-!
# Areas do not touch each other

An operation concerns one area, and whatever lies elsewhere is the same before and after it. The
targets and destinations of a drag may be entries of any area, and a deletion takes more rows than
one, but neither gets out of the area of the subject: edits are made to rows of that area, and only
its listings are settled.

Rows also keep what they were created with. Of a category that is its area and the time, and of a
field its short name, its type and the time; a field may change its category, but only for another
one of the same area.

## Main definitions

* `Category.SameOrigin`, `Field.SameOrigin`: what a row is created with
* `Contents.KeepsOrigins`: the rows that survive keep what they were created with
* `Contents.SameOutside`: the same rows outside an area

## Main results

* `Contents.Change.sameOutside`, `Contents.Change.keepsOrigins`: what one change leaves alone
* `Catalog.operations_isolated`: no operation reaches beyond the area it concerns
-/

namespace FieldCatalog

/-! ## What a row is created with -/

/-- Two states of a category agree on what it was created with. -/
structure Category.SameOrigin (old row : Category) : Prop where
  area : row.area = old.area
  timecreated : row.timecreated = old.timecreated

/-- Two states of a field agree on what it was created with. -/
structure Field.SameOrigin (old row : Field) : Prop where
  shortname : row.shortname = old.shortname
  type : row.type = old.type
  timecreated : row.timecreated = old.timecreated

theorem Category.SameOrigin.refl (row : Category) : row.SameOrigin row := ⟨rfl, rfl⟩

theorem Field.SameOrigin.refl (row : Field) : row.SameOrigin row := ⟨rfl, rfl, rfl⟩

theorem Category.SameOrigin.of_unplaced {old mid row : Category} (h : old.SameOrigin mid)
    (hu : mid.unplaced = row.unplaced) : old.SameOrigin row where
  area := (congrArg Category.area hu :).symm.trans h.area
  timecreated := (congrArg Category.timecreated hu :).symm.trans h.timecreated

theorem Field.SameOrigin.of_unplaced {old mid row : Field} (h : old.SameOrigin mid)
    (hu : mid.unplaced = row.unplaced) : old.SameOrigin row where
  shortname := (congrArg Field.shortname hu :).symm.trans h.shortname
  type := (congrArg Field.type hu :).symm.trans h.type
  timecreated := (congrArg Field.timecreated hu :).symm.trans h.timecreated

/-! ## Rows that do not move -/

/-- A row that does not move, and that no other row moves to, is in a table before and after. -/
theorem Table.mem_mapRows_of_fixed {α : Type} {key : α → Int} {t : Table α key} {f : α → α}
    {keeps : ∀ row, key (f row) = key row} {row : α}
    (h : ∀ old ∈ t, old = row ∨ f old = row → f old = old) : row ∈ t.mapRows f keeps ↔ row ∈ t := by
  rw [mem_mapRows]
  constructor
  · rintro ⟨old, hold, hrow⟩
    exact (h old hold (.inr hrow)).symm.trans hrow ▸ hold
  · exact fun hrow => ⟨row, hrow, h row hrow (.inl rfl)⟩

namespace Contents

variable {now : Int} {area : Area} {scope : Scope} {scopes : List Scope} {c c' c'' : Contents}

/-- The rows that survive keep what they were created with, and the fields among them stay in
categories of their area. -/
structure KeepsOrigins (c c' : Contents) : Prop where
  category : ∀ old ∈ c.categories, ∀ row ∈ c'.categories, row.id = old.id → old.SameOrigin row
  field : ∀ old ∈ c.fields, ∀ row ∈ c'.fields, row.id = old.id → old.SameOrigin row
  home : ∀ old ∈ c.fields, ∀ row ∈ c'.fields, row.id = old.id →
    ∃ area, c.areaOf? (.fields old.categoryid) = some area ∧
      c'.areaOf? (.fields row.categoryid) = some area

/-- Outside an area, both contents hold the same categories, and the same fields in the categories
of any other area. -/
structure SameOutside (area : Option Area) (c c' : Contents) : Prop where
  category : ∀ row : Category, some row.area ≠ area → (row ∈ c'.categories ↔ row ∈ c.categories)
  field : ∀ (row : Field) (elsewhere : Area), some elsewhere ≠ area →
    (row ∈ c'.fields ∧ c'.areaOf? (.fields row.categoryid) = some elsewhere ↔
      row ∈ c.fields ∧ c.areaOf? (.fields row.categoryid) = some elsewhere)

/-! ## Outside an area -/

theorem areaOf?_fields_eq_some_iff {id : Id} :
    c.areaOf? (.fields id) = some area ↔
      ∃ home ∈ c.categories, home.id = id ∧ home.area = area := by
  simp only [areaOf?, Option.map_eq_some_iff, category?_eq_some_iff, and_assoc]

theorem SameOutside.refl (area : Option Area) (c : Contents) : c.SameOutside area c :=
  ⟨fun _ _ => Iff.rfl, fun _ _ _ => Iff.rfl⟩

theorem SameOutside.trans {area : Option Area} (h : SameOutside area c c')
    (h' : SameOutside area c' c'') : SameOutside area c c'' where
  category row hne := (h'.category row hne).trans (h.category row hne)
  field row elsewhere hne := (h'.field row elsewhere hne).trans (h.field row elsewhere hne)

/-- The categories tell which fields lie outside an area, so that of the fields it is enough to say
that the same ones are there. -/
theorem sameOutside_of_forall
    (hcategory : ∀ row : Category, row.area ≠ area → (row ∈ c'.categories ↔ row ∈ c.categories))
    (hfield : ∀ (row : Field) (elsewhere : Area), elsewhere ≠ area →
      c.areaOf? (.fields row.categoryid) = some elsewhere → (row ∈ c'.fields ↔ row ∈ c.fields)) :
    c.SameOutside (some area) c' where
  category row hne := hcategory row fun h => hne (congrArg some h)
  field row elsewhere hne := by
    have hne' : elsewhere ≠ area := fun h => hne (congrArg some h)
    have harea : c'.areaOf? (.fields row.categoryid) = some elsewhere ↔
        c.areaOf? (.fields row.categoryid) = some elsewhere := by
      simp only [areaOf?_fields_eq_some_iff]
      refine exists_congr fun home => ?_
      constructor
      · rintro ⟨hmem, hid, rfl⟩
        exact ⟨(hcategory home hne').mp hmem, hid, rfl⟩
      · rintro ⟨hmem, hid, rfl⟩
        exact ⟨(hcategory home hne').mpr hmem, hid, rfl⟩
    rw [harea]
    exact and_congr_left (hfield row elsewhere hne')

/-! ## Settling -/

/-- An entry of another listing keeps its position when a listing is settled. -/
theorem rankIn_of_ne {scope' : Scope} {order : List Member} {m : Member}
    (perm : order.Perm (c.list scope)) (hm : m ∈ c.list scope') (hk : scope'.kind = scope.kind)
    (hne : scope' ≠ scope) : Listing.rankIn 0 order m = m.sortorder := by
  refine Listing.rankIn_of_not_mem fun hid => hne ?_
  obtain ⟨n, hn, hid⟩ := List.mem_map.mp hid
  exact (list_unique hm (perm.mem_iff.mp hn) hk hid.symm).1

/-- A category of another area is not moved when a listing of categories is settled. -/
theorem mem_categories_settle {order : List Member} {row : Category}
    (perm : order.Perm (c.list (.categories area))) (hne : row.area ≠ area) :
    row ∈ (c.settle now .category order).categories ↔ row ∈ c.categories := by
  show row ∈ c.categories.mapRows (fun old => old.moveTo now (Listing.rankIn 0 order old.member))
    (fun old => old.id_moveTo now _) ↔ _
  refine Table.mem_mapRows_of_fixed fun old hold hrow => ?_
  have harea : old.area = row.area := by
    rcases hrow with rfl | rfl
    · rfl
    · exact (Category.area_moveTo now _ old).symm
  have hm : old.member ∈ c.list (.categories old.area) :=
    mem_list_categories.mpr ⟨old, hold, rfl, rfl⟩
  rw [rankIn_of_ne perm hm rfl fun h => hne (harea.symm.trans (Scope.categories.inj h))]
  exact old.moveTo_sortorder now

/-- A field of another category is not moved when a listing of fields is settled. -/
theorem mem_fields_settle {id : Id} {order : List Member} {row : Field}
    (perm : order.Perm (c.list (.fields id))) (hne : row.categoryid ≠ id) :
    row ∈ (c.settle now .field order).fields ↔ row ∈ c.fields := by
  show row ∈ c.fields.mapRows (fun old => old.moveTo now (Listing.rankIn 0 order old.member))
    (fun old => old.id_moveTo now _) ↔ _
  refine Table.mem_mapRows_of_fixed fun old hold hrow => ?_
  have hhome : old.categoryid = row.categoryid := by
    rcases hrow with rfl | rfl
    · rfl
    · exact (Field.categoryid_moveTo now _ old).symm
  have hm : old.member ∈ c.list (.fields old.categoryid) :=
    mem_list_fields.mpr ⟨old, hold, rfl, rfl⟩
  rw [rankIn_of_ne perm hm rfl fun h => hne (hhome.symm.trans (Scope.fields.inj h))]
  exact old.moveTo_sortorder now

/-- Settling a listing of an area moves no row outside the area. -/
theorem sameOutside_settle {order : List Member} (belongs : c.areaOf? scope = some area)
    (perm : order.Perm (c.list scope)) :
    c.SameOutside (some area) (c.settle now scope.kind order) := by
  cases scope with
  | categories own =>
    obtain rfl : own = area := Option.some.inj belongs
    exact sameOutside_of_forall (fun row hne => mem_categories_settle perm hne)
      fun row elsewhere _ _ => Iff.rfl
  | fields id =>
    refine sameOutside_of_forall (fun row _ => Iff.rfl) fun row elsewhere hne harea =>
      mem_fields_settle perm ?_
    -- A field of the settled category lies in the area.
    rintro rfl
    exact hne (Option.some.inj (harea.symm.trans belongs))

theorem Settled.sameOutside (h : Settled now area scopes c c') : c.SameOutside (some area) c' := by
  induction h with
  | refl c => exact .refl _ c
  | step belongs perm _ ih => exact (sameOutside_settle belongs perm).trans ih

/-! ## Stored rows -/

/-- A category that is stored either has a new number, or it is stored in the stead of the one that
has been found. -/
theorem eq_of_id_eq_storedCategory (row : Category) {found old : Category}
    (hfound : c.category? row.id = some found) (htime : row.timecreated = found.timecreated)
    (hold : old ∈ c.categories) (hid : (c.storedCategory row).id = old.id) :
    c.storedCategory row = row ∧ old = found := by
  by_cases hzero : row.id = 0
  · rw [storedCategory, if_pos hzero] at hid
    exact absurd hid.symm (Int.ne_of_lt (Table.lt_nextKey hold))
  · have hrow := storedCategory_of_ne hfound hzero htime
    rw [hrow] at hid
    obtain ⟨hmem, hid'⟩ := category?_eq_some_iff.mp hfound
    exact ⟨hrow, Table.eq_of_key_eq hold hmem (hid.symm.trans hid'.symm)⟩

theorem eq_of_id_eq_storedField (row : Field) {found old : Field}
    (hfound : c.field? row.id = some found) (htime : row.timecreated = found.timecreated)
    (hold : old ∈ c.fields) (hid : (c.storedField row).id = old.id) :
    c.storedField row = row ∧ old = found := by
  by_cases hzero : row.id = 0
  · rw [storedField, if_pos hzero] at hid
    exact absurd hid.symm (Int.ne_of_lt (Table.lt_nextKey hold))
  · have hrow := storedField_of_ne hfound hzero htime
    rw [hrow] at hid
    obtain ⟨hmem, hid'⟩ := field?_eq_some_iff.mp hfound
    exact ⟨hrow, Table.eq_of_key_eq hold hmem (hid.symm.trans hid'.symm)⟩

/-- Storing a category changes at most its number and its time of creation. -/
theorem storedCategory_eq (c : Contents) (row : Category) :
    ∃ id timecreated, c.storedCategory row = { row with id, timecreated } := by
  unfold storedCategory
  split
  · exact ⟨_, _, rfl⟩
  · split <;> exact ⟨_, _, rfl⟩

/-! ## Edits outside an area -/

/-- A category that is put into an area, in the stead of one of the area if of any, is no matter
outside of it. -/
theorem mem_withCategory_of_ne {row other : Category} (harea : row.area = area)
    (hplace : ∀ old ∈ c.categories, row.id = old.id → old.area = area) (hne : other.area ≠ area) :
    other ∈ (c.withCategory row).categories ↔ other ∈ c.categories := by
  rw [mem_withCategory]
  constructor
  · rintro (rfl | ⟨hmem, -⟩)
    · exact absurd harea hne
    · exact hmem
  · exact fun hmem => .inr ⟨hmem, fun hid => hne (hplace other hmem hid.symm)⟩

/-- A field that is put into an area, in the stead of one of the area if of any, is no matter
outside of it. -/
theorem mem_withField_of_ne {row other : Field}
    (harea : c.areaOf? (.fields row.categoryid) = some area)
    (hplace : ∀ old ∈ c.fields, row.id = old.id → c.areaOf? (.fields old.categoryid) = some area)
    (hne : c.areaOf? (.fields other.categoryid) ≠ some area) :
    other ∈ (c.withField row).fields ↔ other ∈ c.fields := by
  rw [mem_withField]
  constructor
  · rintro (rfl | ⟨hmem, -⟩)
    · exact absurd harea hne
    · exact hmem
  · exact fun hmem => .inr ⟨hmem, fun hid => hne (hplace other hmem hid.symm)⟩

/-- An edit touches no category of another area. -/
theorem Edit.mem_categories_iff (h : Edit now area c scopes c') {row : Category}
    (hne : row.area ≠ area) : row ∈ c'.categories ↔ row ∈ c.categories := by
  cases h with
  | none => exact Iff.rfl
  | addCategory =>
    refine mem_withCategory_of_ne rfl (fun old hold hid => ?_) hne
    exact absurd hid.symm (Int.ne_of_lt (Table.lt_nextKey hold))
  | @retitle old name found belongs =>
    obtain ⟨id, timecreated, hrow⟩ :=
      c.storedCategory_eq { old with name, timemodified := now }
    refine mem_withCategory_of_ne (by rw [hrow]; exact belongs) (fun other hother hid => ?_) hne
    obtain ⟨-, rfl⟩ := eq_of_id_eq_storedCategory
      { old with name, timemodified := now } found rfl hother hid
    exact belongs
  | @removeCategory old found belongs =>
    -- The only category that goes is one of the area.
    refine Table.mem_erase.trans (and_iff_left_of_imp fun hmem hid => hne ?_)
    obtain rfl := Table.eq_of_key_eq hmem (category?_eq_some_iff.mp found).1 hid
    exact belongs
  | addField => exact Iff.rfl
  | amend => exact Iff.rfl
  | removeField => exact Iff.rfl
  | rehome => exact Iff.rfl

/-- An edit touches no field in a category of another area. -/
theorem Edit.mem_fields_iff (h : Edit now area c scopes c') {row : Field}
    (hne : c.areaOf? (.fields row.categoryid) ≠ some area) : row ∈ c'.fields ↔ row ∈ c.fields := by
  cases h with
  | none => exact Iff.rfl
  | addCategory => exact Iff.rfl
  | retitle => exact Iff.rfl
  | @removeCategory old found belongs =>
    -- The fields that go with a category lie in its area.
    refine Table.mem_eraseWhere.trans (and_iff_left_of_imp fun _ => ?_)
    refine beq_eq_false_iff_ne.mpr fun hid => hne ?_
    rw [hid, areaOf?, found, Option.map_some, belongs]
  | @addField home draft configdata found belongs =>
    have hhome : c.areaOf? (.fields home.id) = some area := by
      rw [areaOf?, found, Option.map_some, belongs]
    refine mem_withField_of_ne hhome (fun old hold hid => ?_) hne
    exact absurd hid.symm (Int.ne_of_lt (Table.lt_nextKey hold))
  | @amend old name description configdata found belongs =>
    obtain ⟨id, timecreated, hrow⟩ :=
      c.storedField_eq { old with name, description, configdata, timemodified := now }
    refine mem_withField_of_ne (by rw [hrow]; exact belongs) (fun other hother hid => ?_) hne
    obtain ⟨-, rfl⟩ := eq_of_id_eq_storedField
      { old with name, description, configdata, timemodified := now } found rfl hother hid
    exact belongs
  | @removeField old found belongs =>
    refine Table.mem_erase.trans (and_iff_left_of_imp fun hmem hid => hne ?_)
    obtain rfl := Table.eq_of_key_eq hmem (field?_eq_some_iff.mp found).1 hid
    exact belongs
  | @rehome old home found belongs reaches =>
    -- Before and after it moves, the field lies in the area.
    rw [mem_rehome]
    constructor
    · rintro (⟨hmem, -⟩ | ⟨moved, -, -, rfl⟩)
      · exact hmem
      · exact absurd reaches hne
    · refine fun hmem => .inl ⟨hmem, fun hid => hne ?_⟩
      obtain rfl := Table.eq_of_key_eq hmem (field?_eq_some_iff.mp found).1 hid
      exact belongs

/-- A change touches nothing outside its area. -/
theorem Change.sameOutside (h : Change now area c c') : c.SameOutside (some area) c' := by
  obtain ⟨edit, settled⟩ := h
  refine .trans (sameOutside_of_forall (fun row => edit.mem_categories_iff) ?_) settled.sameOutside
  intro row elsewhere hne harea
  exact edit.mem_fields_iff fun h => hne (Option.some.inj (harea.symm.trans h))

/-! ## Rows that survive -/

theorem KeepsOrigins.refl (hc : c.Referential) : c.KeepsOrigins c where
  category old hold row hrow hid := Table.eq_of_key_eq hrow hold hid ▸ .refl row
  field old hold row hrow hid := Table.eq_of_key_eq hrow hold hid ▸ .refl row
  home old hold row hrow hid := by
    obtain rfl := Table.eq_of_key_eq hrow hold hid
    obtain ⟨home, hhome⟩ := referential_iff.mp hc row.id row (field?_eq_some_iff.mpr ⟨hrow, rfl⟩)
    have harea : c.areaOf? (.fields row.categoryid) = some home.area :=
      congrArg (Option.map Category.area) hhome
    exact ⟨home.area, harea, harea⟩

/-- Rearranging does not touch what rows were created with. -/
theorem KeepsOrigins.rearranged (h : c.KeepsOrigins c') (hr : c'.Rearranged c'') :
    c.KeepsOrigins c'' where
  category old hold row hrow hid := by
    obtain ⟨mid, hmid, hu⟩ := hr.category (category?_eq_some_iff.mpr ⟨hrow, rfl⟩)
    obtain ⟨hmem, hid'⟩ := category?_eq_some_iff.mp hmid
    exact (h.category old hold mid hmem (hid'.trans hid)).of_unplaced hu
  field old hold row hrow hid := by
    obtain ⟨mid, hmid, hu⟩ := hr.field (field?_eq_some_iff.mpr ⟨hrow, rfl⟩)
    obtain ⟨hmem, hid'⟩ := field?_eq_some_iff.mp hmid
    exact (h.field old hold mid hmem (hid'.trans hid)).of_unplaced hu
  home old hold row hrow hid := by
    obtain ⟨mid, hmid, hu⟩ := hr.field (field?_eq_some_iff.mpr ⟨hrow, rfl⟩)
    obtain ⟨hmem, hid'⟩ := field?_eq_some_iff.mp hmid
    obtain ⟨area, hbefore, hafter⟩ := h.home old hold mid hmem (hid'.trans hid)
    have hhome : mid.categoryid = row.categoryid := (congrArg Field.categoryid hu :)
    exact ⟨area, hbefore, hhome ▸ (hr.areaOf?_eq _).trans hafter⟩

/-- A category that survives an edit keeps its area and its time of creation. -/
theorem Edit.sameOrigin_category (h : Edit now area c scopes c') {old row : Category}
    (hold : old ∈ c.categories) (hrow : row ∈ c'.categories) (hid : row.id = old.id) :
    old.SameOrigin row := by
  have unchanged : row ∈ c.categories → old.SameOrigin row := fun hmem =>
    Table.eq_of_key_eq hmem hold hid ▸ .refl row
  cases h with
  | none => exact unchanged hrow
  | addCategory =>
    rcases mem_withCategory.mp hrow with rfl | ⟨hmem, -⟩
    · exact absurd hid.symm (Int.ne_of_lt (Table.lt_nextKey hold))
    · exact unchanged hmem
  | @retitle found name hfound =>
    rcases mem_withCategory.mp hrow with rfl | ⟨hmem, -⟩
    · obtain ⟨heq, rfl⟩ := eq_of_id_eq_storedCategory
        { found with name, timemodified := now } hfound rfl hold hid
      rw [heq]
      exact ⟨rfl, rfl⟩
    · exact unchanged hmem
  | removeCategory => exact unchanged (Table.mem_erase.mp hrow).1
  | addField => exact unchanged hrow
  | amend => exact unchanged hrow
  | removeField => exact unchanged hrow
  | rehome => exact unchanged hrow

/-- A field that survives an edit keeps its short name, its type and its time of creation. It keeps
its category too, unless that is exchanged for another one of the area. -/
theorem Edit.sameOrigin_field (h : Edit now area c scopes c') {old row : Field}
    (hold : old ∈ c.fields) (hrow : row ∈ c'.fields) (hid : row.id = old.id) :
    old.SameOrigin row ∧ (row.categoryid = old.categoryid ∨
      (c.areaOf? (.fields old.categoryid) = some area ∧
        c'.areaOf? (.fields row.categoryid) = some area)) := by
  have unchanged (hmem : row ∈ c.fields) : old.SameOrigin row ∧
      (row.categoryid = old.categoryid ∨ (c.areaOf? (.fields old.categoryid) = some area ∧
        c'.areaOf? (.fields row.categoryid) = some area)) := by
    obtain rfl := Table.eq_of_key_eq hmem hold hid
    exact ⟨.refl row, .inl rfl⟩
  cases h with
  | none => exact unchanged hrow
  | addCategory => exact unchanged hrow
  | retitle => exact unchanged hrow
  | removeCategory => exact unchanged (Table.mem_eraseWhere.mp hrow).1
  | addField =>
    rcases mem_withField.mp hrow with rfl | ⟨hmem, -⟩
    · exact absurd hid.symm (Int.ne_of_lt (Table.lt_nextKey hold))
    · exact unchanged hmem
  | @amend found name description configdata hfound =>
    rcases mem_withField.mp hrow with rfl | ⟨hmem, -⟩
    · obtain ⟨heq, rfl⟩ := eq_of_id_eq_storedField
        { found with name, description, configdata, timemodified := now } hfound rfl hold hid
      rw [heq]
      exact ⟨⟨rfl, rfl, rfl⟩, .inl rfl⟩
    · exact unchanged hmem
  | removeField => exact unchanged (Table.mem_erase.mp hrow).1
  | @rehome found home hfound belongs reaches =>
    rcases mem_rehome.mp hrow with ⟨hmem, -⟩ | ⟨moved, hmoved, hmovedid, rfl⟩
    · exact unchanged hmem
    · -- The field that has been moved is the one that was found.
      obtain rfl := Table.eq_of_key_eq hmoved hold hid
      obtain rfl := Table.eq_of_key_eq hmoved (field?_eq_some_iff.mp hfound).1 hmovedid
      exact ⟨⟨rfl, rfl, rfl⟩, .inr ⟨belongs, reaches⟩⟩

theorem Edit.keepsOrigins (h : Edit now area c scopes c') (hc : c.Referential) :
    c.KeepsOrigins c' where
  category _ hold _ hrow hid := h.sameOrigin_category hold hrow hid
  field _ hold _ hrow hid := (h.sameOrigin_field hold hrow hid).1
  home old hold row hrow hid := by
    rcases (h.sameOrigin_field hold hrow hid).2 with hsame | hareas
    · -- The category has survived, since the field still lies in it, and so it has kept its area.
      obtain ⟨home, hhome, hhomeid⟩ := hc old hold
      obtain ⟨home', hhome', hhomeid'⟩ := h.referential hc row hrow
      have harea : home'.area = home.area := (h.sameOrigin_category hhome hhome'
        (hhomeid'.trans (hsame.trans hhomeid.symm))).area
      exact ⟨home.area, areaOf?_fields_eq_some_iff.mpr ⟨home, hhome, hhomeid, rfl⟩,
        areaOf?_fields_eq_some_iff.mpr ⟨home', hhome', hhomeid', harea⟩⟩
    · exact ⟨area, hareas⟩

/-- Rows that survive a change keep what they were created with. -/
theorem Change.keepsOrigins (h : Change now area c c') (hc : c.Referential) : c.KeepsOrigins c' :=
  let ⟨edit, settled⟩ := h
  (edit.keepsOrigins hc).rearranged settled.rearranged

end Contents

/-! ## All operations -/

namespace Catalog

variable {σ : Type} {k : Circumstances σ} {h : Holdings σ}

/-- No operation reaches beyond the area it concerns, and the rows that survive it keep what they
were created with. An operation on a row that does not exist concerns no area, and so it leaves
everything as it is. -/
theorem operations_isolated (m : Mutation) (k : Circumstances σ) (hc : h.contents.Referential) :
    h.contents.SameOutside (m.areaIn h.contents) (m.perform.run k h).2.contents ∧
      h.contents.KeepsOrigins (m.perform.run k h).2.contents := by
  refine Session.keeps_of_ensures
    (P := fun c' => h.contents.SameOutside (m.areaIn h.contents) c' ∧ h.contents.KeepsOrigins c')
    (m.ensures (k := k) hc) ⟨.refl _ _, .refl hc⟩ fun _ c' hpost => ?_
  rcases hpost with rfl | ⟨area, harea, hchange⟩
  · exact ⟨.refl _ _, .refl hc⟩
  · exact ⟨harea ▸ hchange.sameOutside, hchange.keepsOrigins hc⟩

/-- Two areas whose rows have numbers and positions that no catalog would have chosen. -/
def neighbours : Contents where
  categories := ⟨[⟨-3, "General", "", ⟨"core", "course", 0⟩, 7, 5, 5⟩,
    ⟨0, "Profile", "", ⟨"core", "user", 0⟩, 7, 5, 5⟩], by decide⟩
  fields := ⟨[⟨0, "level", "Level", "text", "", -3, -2, "\x7b\x7d", 5, 5⟩,
    ⟨4, "nickname", "Nickname", "text", "", 0, 9, "\x7b\x7d", 5, 5⟩], by decide⟩

/-- A field of the one area is dragged before a field of the other. -/
theorem operations_isolated_neighbours :
    let m : Mutation := .dragField 0 none (some 4)
    let after := (m.perform.run (σ := Unit) ⟨.builtin, 3, false, 6⟩ ⟨neighbours, ()⟩).2.contents
    neighbours.Referential ∧ m.areaIn neighbours = some ⟨"core", "course", 0⟩ ∧
      neighbours.SameOutside (m.areaIn neighbours) after ∧ neighbours.KeepsOrigins after :=
  have hc : neighbours.Referential := by decide
  ⟨hc, rfl, operations_isolated (h := ⟨neighbours, ()⟩) (.dragField 0 none (some 4)) _ hc⟩

end Catalog

end FieldCatalog
