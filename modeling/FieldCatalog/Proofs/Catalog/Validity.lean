import FieldCatalog.Proofs.Catalog.Change
import FieldCatalog.Proofs.Store.Reading
import FieldCatalog.Proofs.Text.Identifier

/-!
# Valid catalogs

In a valid catalog the short name of a field is unique in its area, and all names and areas are well
formed. Nothing in the tables demands this. It lasts because a short name is checked against the
whole area when a field is created, and because afterwards a field keeps its short name and its area.

## Main definitions

* `Area.Named`: an area with names that are not blank and no negative item
* `IsShortname`: lower-case letters, digits and underscores, at least one
* `Contents.Distinct`: short names are unique in each area
* `Contents.Valid`: short names are unique, and names and areas are well formed

## Main results

* `Contents.Edit.distinct`: an edit keeps short names unique
* `Contents.Change.valid`: a change keeps a catalog valid
-/

namespace FieldCatalog

/-! ## Names -/

/-- An area with a component and an area name that are not blank, and no negative item. -/
structure Area.Named (a : Area) : Prop where
  component : Text.allBlank a.component = false
  area : Text.allBlank a.area = false
  itemid : 0 ≤ a.itemid

/-- The check of an area admits the named areas. -/
theorem Area.check_eq_ok_iff {a : Area} : a.check = .ok () ↔ a.Named := by
  -- The check asks for the three parts in turn.
  unfold check
  constructor
  · intro h
    split at h
    · cases h
    · next hcomponent =>
      split at h
      · cases h
      · next harea =>
        split at h
        · cases h
        · next hitem =>
          exact ⟨Bool.eq_false_iff.mpr hcomponent, Bool.eq_false_iff.mpr harea, Int.not_lt.mp hitem⟩
  · rintro ⟨hcomponent, harea, hitem⟩
    rw [if_neg (Bool.eq_false_iff.mp hcomponent), if_neg (Bool.eq_false_iff.mp harea),
      if_neg (Int.not_lt.mpr hitem)]

instance (a : Area) : Decidable a.Named :=
  decidable_of_iff _ Area.check_eq_ok_iff

/-- Lower-case letters, digits and underscores, at least one. -/
def IsShortname (s : String) : Prop :=
  s ≠ "" ∧ ∀ c ∈ s.toList, ('a' ≤ c ∧ c ≤ 'z') ∨ ('0' ≤ c ∧ c ≤ '9') ∨ c = '_'

/-- The check of a short name admits the well-formed ones. -/
theorem isShortname_iff {s : String} : isShortname s.toList = true ↔ IsShortname s := by
  simp only [isShortname, IsShortname, Bool.and_eq_true, Bool.not_eq_true', List.isEmpty_eq_false_iff,
    ne_eq, String.toList_eq_nil_iff, List.all_eq_true, Bool.or_eq_true, beq_iff_eq, Text.isLower_iff,
    Text.isDigit_iff, or_assoc]

instance (s : String) : Decidable (IsShortname s) :=
  decidable_of_iff _ isShortname_iff

namespace Contents

variable {now : Int} {area : Area} {scopes : List Scope} {c c' : Contents}

/-- Short names are unique in each area. -/
def Distinct (c : Contents) : Prop :=
  ∀ a ∈ c.fields, ∀ b ∈ c.fields, ∀ area ∈ c.areaOf? (.fields a.categoryid),
    c.areaOf? (.fields b.categoryid) = some area → a.shortname = b.shortname → a = b

instance (c : Contents) : Decidable c.Distinct :=
  inferInstanceAs (Decidable (∀ a ∈ c.fields, ∀ b ∈ c.fields, _))

/-- Short names are unique in each area, and names and areas are well formed. -/
structure Valid (c : Contents) : Prop where
  distinct : c.Distinct
  shortname : ∀ row ∈ c.fields, IsShortname row.shortname
  fieldName : ∀ row ∈ c.fields, Text.IsTrimmed row.name
  categoryName : ∀ row ∈ c.categories, Text.IsTrimmed row.name
  named : ∀ row ∈ c.categories, row.area.Named

instance (c : Contents) : Decidable c.Valid :=
  decidable_of_iff (c.Distinct ∧ (∀ row ∈ c.fields, IsShortname row.shortname) ∧
      (∀ row ∈ c.fields, Text.IsTrimmed row.name) ∧
      (∀ row ∈ c.categories, Text.IsTrimmed row.name) ∧ ∀ row ∈ c.categories, row.area.Named)
    ⟨fun ⟨h₁, h₂, h₃, h₄, h₅⟩ => ⟨h₁, h₂, h₃, h₄, h₅⟩,
      fun ⟨h₁, h₂, h₃, h₄, h₅⟩ => ⟨h₁, h₂, h₃, h₄, h₅⟩⟩

/-! ## Categories that stay -/

theorem category?_withCategory_of_ne {row : Category} {id : Id} (h : id ≠ row.id) :
    (c.withCategory row).category? id = c.category? id :=
  Table.find?_put_of_ne h

theorem category?_withoutCategory_of_ne {removed id : Id} (h : id ≠ removed) :
    (c.withoutCategory removed).category? id = c.category? id :=
  c.categories.find?_erase_of_ne h

theorem areaOf?_withCategory_of_ne {row : Category} {id : Id} (h : id ≠ row.id) :
    (c.withCategory row).areaOf? (.fields id) = c.areaOf? (.fields id) := by
  rw [areaOf?, areaOf?, category?_withCategory_of_ne h]

/-- Storing a category again in its area leaves every category in its area. -/
theorem areaOf?_withCategory_of_found {row old : Category} {id : Id}
    (hold : c.category? row.id = some old) (harea : row.area = old.area) :
    (c.withCategory row).areaOf? (.fields id) = c.areaOf? (.fields id) := by
  by_cases h : id = row.id
  · subst h
    rw [areaOf?, areaOf?, category?_withCategory, hold, Option.map_some, Option.map_some, harea]
  · exact areaOf?_withCategory_of_ne h

/-- No field lies in a category that is yet to come. -/
theorem Referential.ne_nextKey (h : c.Referential) {row : Field} (hrow : row ∈ c.fields) :
    row.categoryid ≠ c.categories.nextKey := by
  obtain ⟨home, hhome, hid⟩ := h row hrow
  exact hid ▸ Int.ne_of_lt (Table.lt_nextKey hhome)

/-! ## Unique short names -/

/-- Short names stay unique when every field has been there before, under its short name and in its
area. -/
theorem Distinct.of_forall (hc : c.Distinct)
    (h : ∀ row ∈ c'.fields, ∃ old ∈ c.fields, old.id = row.id ∧ old.shortname = row.shortname ∧
      c'.areaOf? (.fields row.categoryid) = c.areaOf? (.fields old.categoryid)) : c'.Distinct := by
  -- Two fields of one short name in one area have been one field before, so their numbers are equal.
  intro a ha b hb area harea hbrea hname
  obtain ⟨olda, holda, hida, hnamea, hareaa⟩ := h a ha
  obtain ⟨oldb, holdb, hidb, hnameb, hareab⟩ := h b hb
  have hold : olda = oldb := hc olda holda oldb holdb area (hareaa ▸ harea) (hareab ▸ hbrea)
    (hnamea.trans (hname.trans hnameb.symm))
  exact Table.eq_of_key_eq ha hb (hida.symm.trans ((congrArg Field.id hold).trans hidb))

theorem Rearranged.distinct (h : c.Rearranged c') (hc : c.Distinct) : c'.Distinct := by
  refine hc.of_forall fun row hrow => ?_
  obtain ⟨old, hold, hu⟩ := h.field (field?_eq_some_iff.mpr ⟨hrow, rfl⟩)
  obtain ⟨hmem, hid⟩ := field?_eq_some_iff.mp hold
  have hname : old.shortname = row.shortname := (congrArg Field.shortname hu :)
  have hhome : old.categoryid = row.categoryid := (congrArg Field.categoryid hu :)
  exact ⟨old, hmem, hid, hname, hhome ▸ h.areaOf?_eq _⟩

/-- A short name that is free in an area is the short name of no field there. -/
theorem ne_of_fieldByShortname_eq_none {shortname : String}
    (h : c.fieldByShortname area shortname = none) {row : Field} (hrow : row ∈ c.fields)
    (harea : c.areaOf? (.fields row.categoryid) = some area) : row.shortname ≠ shortname := by
  -- Otherwise the field would have been found.
  intro hname
  obtain ⟨home, hhome, hbelongs⟩ := category?_of_areaOf? harea
  obtain ⟨hmem, hid⟩ := category?_eq_some_iff.mp hhome
  have hfound := isSome_fieldByShortname_iff.mpr ⟨row, hrow, hname, home, hmem, hid, hbelongs⟩
  rw [h] at hfound
  cases hfound

theorem Distinct.withField (hc : c.Distinct) {row : Field}
    (harea : c.areaOf? (.fields row.categoryid) = some area)
    (hfree : ∀ other ∈ c.fields, c.areaOf? (.fields other.categoryid) = some area →
      other.shortname ≠ row.shortname) : (c.withField row).Distinct := by
  -- Of two fields of one short name, either both are the new one or neither is.
  intro a ha b hb area' hareaa hareab hname
  have hsame : ∀ id, (c.withField row).areaOf? (.fields id) = c.areaOf? (.fields id) := fun _ => rfl
  rw [hsame] at hareaa hareab
  rcases mem_withField.mp ha with rfl | ⟨hmema, -⟩
  · obtain rfl : area = area' := Option.some.inj (harea.symm.trans hareaa)
    rcases mem_withField.mp hb with rfl | ⟨hmemb, -⟩
    · rfl
    · exact absurd hname.symm (hfree b hmemb hareab)
  · rcases mem_withField.mp hb with rfl | ⟨hmemb, -⟩
    · obtain rfl : area = area' := Option.some.inj (harea.symm.trans hareab)
      exact absurd hname (hfree a hmema hareaa)
    · exact hc a hmema b hmemb area' hareaa hareab hname

/-- An edit keeps short names unique. -/
theorem Edit.distinct (h : Edit now area c scopes c') (hr : c.Referential) (hp : c.Positive)
    (hc : c.Distinct) : c'.Distinct := by
  cases h with
  | none => exact hc
  | addCategory =>
    -- A new number cannot be that of a category in which a field lies already.
    refine hc.of_forall fun row hrow => ⟨row, hrow, rfl, rfl, ?_⟩
    exact areaOf?_withCategory_of_ne (hr.ne_nextKey hrow)
  | @retitle old name found =>
    rw [hp.storedCategory_eq { old with name, timemodified := now } found rfl]
    refine hc.of_forall fun row hrow => ⟨row, hrow, rfl, rfl, ?_⟩
    exact areaOf?_withCategory_of_found found rfl
  | removeCategory =>
    -- The fields that are left lie in other categories.
    refine hc.of_forall fun row hrow => ?_
    obtain ⟨hmem, hne⟩ := Table.mem_eraseWhere.mp hrow
    have hne' := beq_eq_false_iff_ne.mp hne
    exact ⟨row, hmem, rfl, rfl, congrArg (Option.map Category.area)
      (category?_withoutCategory_of_ne hne')⟩
  | addField _ found belongs free =>
    refine hc.withField ((congrArg (Option.map Category.area) found).trans (congrArg some belongs))
      fun other hother harea => ?_
    exact ne_of_fieldByShortname_eq_none free hother harea
  | @amend old name description configdata found =>
    rw [hp.storedField_eq
      { old with name, description, configdata, timemodified := now } found rfl]
    refine hc.of_forall fun row hrow => ?_
    rcases mem_withField.mp hrow with rfl | ⟨hmem, -⟩
    · exact ⟨old, (field?_eq_some_iff.mp found).1, rfl, rfl, rfl⟩
    · exact ⟨row, hmem, rfl, rfl, rfl⟩
  | removeField =>
    exact hc.of_forall fun row hrow => ⟨row, (Table.mem_erase.mp hrow).1, rfl, rfl, rfl⟩
  | rehome found belongs reaches =>
    refine hc.of_forall fun row hrow => ?_
    rcases mem_rehome.mp hrow with ⟨hmem, -⟩ | ⟨old, hold, hid, rfl⟩
    · exact ⟨row, hmem, rfl, rfl, rfl⟩
    · -- The field has come from another category, but of the same area.
      obtain rfl := Table.eq_of_key_eq hold (field?_eq_some_iff.mp found).1 hid
      exact ⟨old, hold, rfl, rfl, reaches.trans belongs.symm⟩

/-! ## Valid contents -/

/-- Names and areas stay well formed when every row has been there before, under its names and in
its area. -/
theorem Valid.of_forall (hc : c.Valid) (hd : c'.Distinct)
    (hfield : ∀ row ∈ c'.fields, ∃ old ∈ c.fields,
      old.shortname = row.shortname ∧ old.name = row.name)
    (hcategory : ∀ row ∈ c'.categories, ∃ old ∈ c.categories,
      old.name = row.name ∧ old.area = row.area) : c'.Valid := by
  refine ⟨hd, ?_, ?_, ?_, ?_⟩ <;> intro row hrow
  · obtain ⟨old, hold, hshort, -⟩ := hfield row hrow
    exact hshort ▸ hc.shortname old hold
  · obtain ⟨old, hold, -, hname⟩ := hfield row hrow
    exact hname ▸ hc.fieldName old hold
  · obtain ⟨old, hold, hname, -⟩ := hcategory row hrow
    exact hname ▸ hc.categoryName old hold
  · obtain ⟨old, hold, -, harea⟩ := hcategory row hrow
    exact harea ▸ hc.named old hold

theorem Rearranged.valid (h : c.Rearranged c') (hc : c.Valid) : c'.Valid := by
  apply hc.of_forall (h.distinct hc.distinct)
  · intro row hrow
    obtain ⟨old, hold, hu⟩ := h.field (field?_eq_some_iff.mpr ⟨hrow, rfl⟩)
    have hshort : old.shortname = row.shortname := (congrArg Field.shortname hu :)
    have hname : old.name = row.name := (congrArg Field.name hu :)
    exact ⟨old, (field?_eq_some_iff.mp hold).1, hshort, hname⟩
  · intro row hrow
    obtain ⟨old, hold, hu⟩ := h.category (category?_eq_some_iff.mpr ⟨hrow, rfl⟩)
    have hname : old.name = row.name := (congrArg Category.name hu :)
    have harea : old.area = row.area := (congrArg Category.area hu :)
    exact ⟨old, (category?_eq_some_iff.mp hold).1, hname, harea⟩

theorem Valid.withCategory (hc : c.Valid) {row : Category} (hd : (c.withCategory row).Distinct)
    (hname : Text.IsTrimmed row.name) (hnamed : row.area.Named) : (c.withCategory row).Valid where
  distinct := hd
  shortname := hc.shortname
  fieldName := hc.fieldName
  categoryName x hx := by
    rcases mem_withCategory.mp hx with rfl | ⟨hmem, -⟩
    · exact hname
    · exact hc.categoryName x hmem
  named x hx := by
    rcases mem_withCategory.mp hx with rfl | ⟨hmem, -⟩
    · exact hnamed
    · exact hc.named x hmem

theorem Valid.withField (hc : c.Valid) {row : Field} (hd : (c.withField row).Distinct)
    (hshort : IsShortname row.shortname) (hname : Text.IsTrimmed row.name) :
    (c.withField row).Valid where
  distinct := hd
  shortname x hx := by
    rcases mem_withField.mp hx with rfl | ⟨hmem, -⟩
    · exact hshort
    · exact hc.shortname x hmem
  fieldName x hx := by
    rcases mem_withField.mp hx with rfl | ⟨hmem, -⟩
    · exact hname
    · exact hc.fieldName x hmem
  categoryName := hc.categoryName
  named := hc.named

/-- An edit keeps a catalog valid. -/
theorem Edit.valid (h : Edit now area c scopes c') (hr : c.Referential) (hp : c.Positive)
    (hc : c.Valid) : c'.Valid := by
  have hd := h.distinct hr hp hc.distinct
  cases h with
  | none => exact hc
  | addCategory name named =>
    exact hc.withCategory hd (Naming.isTrimmed_chosen _ _) (Area.check_eq_ok_iff.mp named)
  | @retitle old name found _ trimmed =>
    rw [hp.storedCategory_eq { old with name, timemodified := now } found rfl] at hd ⊢
    exact hc.withCategory hd trimmed (hc.named old (category?_eq_some_iff.mp found).1)
  | removeCategory =>
    apply hc.of_forall hd
    · intro row hrow
      exact ⟨row, (Table.mem_eraseWhere.mp hrow).1, rfl, rfl⟩
    · intro row hrow
      exact ⟨row, (Table.mem_erase.mp hrow).1, rfl, rfl⟩
  | addField _ _ _ _ proper trimmed =>
    exact hc.withField hd (isShortname_iff.mp proper) trimmed
  | @amend old name description configdata found _ trimmed =>
    rw [hp.storedField_eq
      { old with name, description, configdata, timemodified := now } found rfl] at hd ⊢
    obtain ⟨hmem, -⟩ := field?_eq_some_iff.mp found
    refine hc.withField hd (hc.shortname old hmem) ?_
    rcases trimmed with rfl | trimmed
    · exact hc.fieldName old hmem
    · exact trimmed
  | removeField =>
    apply hc.of_forall hd
    · intro row hrow
      exact ⟨row, (Table.mem_erase.mp hrow).1, rfl, rfl⟩
    · intro row hrow
      exact ⟨row, hrow, rfl, rfl⟩
  | rehome =>
    apply hc.of_forall hd
    · intro row hrow
      rcases mem_rehome.mp hrow with ⟨hmem, -⟩ | ⟨old, hold, -, rfl⟩
      · exact ⟨row, hmem, rfl, rfl⟩
      · exact ⟨old, hold, rfl, rfl⟩
    · intro row hrow
      exact ⟨row, hrow, rfl, rfl⟩

/-- A change keeps a catalog valid. -/
theorem Change.valid (h : Change now area c c') (hr : c.Referential) (hp : c.Positive)
    (hc : c.Valid) : c'.Valid :=
  let ⟨edit, settled⟩ := h
  settled.rearranged.valid (edit.valid hr hp hc)

end Contents

end FieldCatalog
