import FieldCatalog.Proofs.Catalog.Change

/-!
# Contiguous catalogs

A catalog is contiguous when every listing stands at its ranks. An edit disturbs few listings: the
others keep their entries where they are, or lose them all. The disturbed ones are settled
afterwards, so that a change leaves a contiguous catalog contiguous.

## Main definitions

* `Contents.Contiguous`: the positions of every listing are `0, 1, ..., n - 1`

## Main results

* `Contents.Settled.list_eq`, `Contents.Settled.isContiguous`: which listings settling changes
* `Contents.Edit.list_eq_or_nil`: which listings an edit disturbs
* `Contents.Change.contiguous`: a change keeps a catalog contiguous
-/

namespace FieldCatalog

namespace Contents

variable {now : Int} {area : Area} {scope : Scope} {scopes : List Scope} {c c' : Contents}

/-- The positions of every listing are `0, 1, ..., n - 1`. -/
def Contiguous (c : Contents) : Prop :=
  ∀ scope, (c.list scope).map Member.sortorder =
    (List.range (c.list scope).length).map Int.ofNat

theorem contiguous_iff : c.Contiguous ↔ ∀ scope, Listing.isContiguous (c.list scope) = true :=
  forall_congr' fun _ => Listing.isContiguous_iff.symm

/-- It is enough to look at the listings that have entries. -/
theorem contiguous_iff_forall_rows : c.Contiguous ↔
    (∀ row ∈ c.categories, Listing.isContiguous (c.list (.categories row.area)) = true) ∧
      ∀ row ∈ c.fields, Listing.isContiguous (c.list (.fields row.categoryid)) = true := by
  rw [contiguous_iff]
  constructor
  · exact fun h => ⟨fun row _ => h _, fun row _ => h _⟩
  · -- A listing with an entry is that of the row which the entry belongs to.
    rintro ⟨hcategories, hfields⟩ scope
    rcases List.eq_nil_or_concat (c.list scope) with hnil | ⟨front, m, hm⟩
    · rw [hnil]
      rfl
    · have hmem : m ∈ c.list scope := by simp [hm]
      cases scope with
      | categories area =>
        obtain ⟨row, hrow, rfl, -⟩ := mem_list_categories.mp hmem
        exact hcategories row hrow
      | fields id =>
        obtain ⟨row, hrow, rfl, -⟩ := mem_list_fields.mp hmem
        exact hfields row hrow

instance (c : Contents) : Decidable c.Contiguous :=
  decidable_of_iff _ contiguous_iff_forall_rows.symm

/-! ## Settled listings -/

/-- Settling other listings leaves a listing as it is. -/
theorem Settled.list_eq (h : Settled now area scopes c c') (hs : scope ∉ scopes) :
    c'.list scope = c.list scope := by
  induction h with
  | refl c => rfl
  | step _ perm _ ih =>
    rw [List.mem_cons, not_or] at hs
    rw [ih hs.2]
    exact list_settle_of_ne perm hs.1

/-- A listing that has been settled is contiguous, whatever order it has been settled in. -/
theorem Settled.isContiguous (h : Settled now area scopes c c') (hs : scope ∈ scopes) :
    Listing.isContiguous (c'.list scope) = true := by
  -- Induction on the listings that are settled: what counts is the last time that a listing is, for
  -- the settlings behind it are about other listings.
  induction h with
  | refl c => cases hs
  | @step first scopes c c' order _ perm rest ih =>
    by_cases hlater : scope ∈ scopes
    · exact ih hlater
    · obtain rfl : scope = first := (List.mem_cons.mp hs).resolve_right hlater
      rw [rest.list_eq hlater, list_settle now perm]
      exact Listing.isContiguous_ranked order

/-! ## Disturbed listings -/

/-- Storing a category again where it is leaves every listing as it is. -/
theorem list_withCategory_of_found {row old : Category} (hold : c.category? row.id = some old)
    (harea : row.area = old.area) (hpos : row.sortorder = old.sortorder) :
    (c.withCategory row).list scope = c.list scope := by
  -- The listings see nothing of a row but its area, its number and its position.
  obtain ⟨hmem, hid⟩ := category?_eq_some_iff.mp hold
  have hmember : row.member = old.member := by rw [Category.member, Category.member, hpos, hid]
  cases scope with
  | fields id => rfl
  | categories area =>
    refine list_congr fun m => ?_
    rw [mem_list_withCategory, mem_list_categories]
    constructor
    · rintro (⟨rfl, rfl⟩ | ⟨hm, -⟩)
      · exact ⟨old, hmem, harea.symm, hmember.symm⟩
      · exact hm
    · rintro ⟨r, hr, rfl, rfl⟩
      by_cases hk : r.id = row.id
      · obtain rfl := Table.eq_of_key_eq hr hmem (hk.trans hid.symm)
        exact .inl ⟨harea, hmember.symm⟩
      · exact .inr ⟨⟨r, hr, rfl, rfl⟩, hk⟩

/-- Storing a field again where it is leaves every listing as it is. -/
theorem list_withField_of_found {row old : Field} (hold : c.field? row.id = some old)
    (hhome : row.categoryid = old.categoryid) (hpos : row.sortorder = old.sortorder) :
    (c.withField row).list scope = c.list scope := by
  obtain ⟨hmem, hid⟩ := field?_eq_some_iff.mp hold
  have hmember : row.member = old.member := by rw [Field.member, Field.member, hpos, hid]
  cases scope with
  | categories area => rfl
  | fields id =>
    refine list_congr fun m => ?_
    rw [mem_list_withField, mem_list_fields]
    constructor
    · rintro (⟨rfl, rfl⟩ | ⟨hm, -⟩)
      · exact ⟨old, hmem, hhome.symm, hmember.symm⟩
      · exact hm
    · rintro ⟨r, hr, rfl, rfl⟩
      by_cases hk : r.id = row.id
      · obtain rfl := Table.eq_of_key_eq hr hmem (hk.trans hid.symm)
        exact .inl ⟨hhome, hmember.symm⟩
      · exact .inr ⟨⟨r, hr, rfl, rfl⟩, hk⟩

/-- A new category stands in the listing of its area only. -/
theorem list_withCategory_of_new {row : Category} (hid : row.id = c.categories.nextKey)
    (hs : scope ≠ .categories row.area) : (c.withCategory row).list scope = c.list scope := by
  cases scope with
  | fields id => rfl
  | categories area =>
    have hne : row.area ≠ area := fun h => hs (congrArg Scope.categories h.symm)
    refine list_congr fun m => ?_
    rw [mem_list_withCategory]
    constructor
    · rintro (⟨harea, -⟩ | ⟨hm, -⟩)
      · exact absurd harea hne
      · exact hm
    · exact fun hm => .inr ⟨hm, hid ▸ ne_nextKey_of_mem_list hm⟩

/-- A new field stands in the listing of its category only. -/
theorem list_withField_of_new {row : Field} (hid : row.id = c.fields.nextKey)
    (hs : scope ≠ .fields row.categoryid) : (c.withField row).list scope = c.list scope := by
  cases scope with
  | categories area => rfl
  | fields id =>
    have hne : row.categoryid ≠ id := fun h => hs (congrArg Scope.fields h.symm)
    refine list_congr fun m => ?_
    rw [mem_list_withField]
    constructor
    · rintro (⟨hhome, -⟩ | ⟨hm, -⟩)
      · exact absurd hhome hne
      · exact hm
    · exact fun hm => .inr ⟨hm, hid ▸ ne_nextKey_of_mem_list_fields hm⟩

/-- An entry that stands in one listing stands in no other. -/
theorem ne_id_of_mem_list {scope' : Scope} {m n : Member} (hn : n ∈ c.list scope')
    (hs : scope ≠ scope') (hk : scope.kind = scope'.kind) (hm : m ∈ c.list scope) : m.id ≠ n.id :=
  fun hid => hs (list_unique hm hn hk hid).1

/-- A deleted category is missed in the listing of its area, and its fields are gone. -/
theorem list_withoutCategory {old : Category} (hold : c.category? old.id = some old)
    (hs : scope ≠ .categories old.area) :
    (c.withoutCategory old.id).list scope = c.list scope ∨
      (c.withoutCategory old.id).list scope = [] := by
  obtain ⟨hmem, -⟩ := category?_eq_some_iff.mp hold
  cases scope with
  | fields id =>
    rw [list_fields_withoutCategory]
    split
    · exact .inr rfl
    · exact .inl rfl
  | categories area =>
    have hn : old.member ∈ c.list (.categories old.area) :=
      mem_list_categories.mpr ⟨old, hmem, rfl, rfl⟩
    refine .inl (list_congr fun m => ?_)
    rw [mem_list_withoutCategory]
    exact and_iff_left_of_imp (ne_id_of_mem_list hn hs rfl)

/-- A deleted field is missed in the listing of its category only. -/
theorem list_withoutField {old : Field} (hold : c.field? old.id = some old)
    (hs : scope ≠ .fields old.categoryid) :
    (c.withoutField old.id).list scope = c.list scope := by
  obtain ⟨hmem, -⟩ := field?_eq_some_iff.mp hold
  cases scope with
  | categories area => rfl
  | fields id =>
    have hn : old.member ∈ c.list (.fields old.categoryid) :=
      mem_list_fields.mpr ⟨old, hmem, rfl, rfl⟩
    refine list_congr fun m => ?_
    rw [mem_list_withoutField]
    exact and_iff_left_of_imp (ne_id_of_mem_list hn hs rfl)

/-- A field that moves is missed in one listing and appears in another. -/
theorem list_rehome {old : Field} {home : Id} (hold : c.field? old.id = some old)
    (hs : scope ≠ .fields home) (hs' : scope ≠ .fields old.categoryid) :
    (c.rehome old.id home now).list scope = c.list scope := by
  obtain ⟨hmem, -⟩ := field?_eq_some_iff.mp hold
  cases scope with
  | categories area => rfl
  | fields id =>
    have hn : old.member ∈ c.list (.fields old.categoryid) :=
      mem_list_fields.mpr ⟨old, hmem, rfl, rfl⟩
    refine list_congr fun m => ?_
    rw [mem_list_rehome hold]
    constructor
    · rintro (⟨hm, -⟩ | ⟨rfl, -⟩)
      · exact hm
      · exact absurd rfl hs
    · exact fun hm => .inl ⟨hm, ne_id_of_mem_list hn hs' rfl hm⟩

/-- Among positive numbers, an edit changes the listings that are to be settled, and else it at most
empties a listing. -/
theorem Edit.list_eq_or_nil (h : Edit now area c scopes c') (hc : c.Positive)
    (hs : scope ∉ scopes) : c'.list scope = c.list scope ∨ c'.list scope = [] := by
  cases h with
  | none => exact .inl rfl
  | addCategory name =>
    exact .inl (list_withCategory_of_new rfl fun h => hs (h ▸ List.mem_singleton_self _))
  | @retitle old name found =>
    -- The number zero would ask for a second row here; a positive number replaces the first.
    rw [hc.storedCategory_eq { old with name, timemodified := now } found rfl]
    exact .inl (list_withCategory_of_found found rfl rfl)
  | removeCategory found belongs =>
    exact list_withoutCategory found fun h => hs (belongs ▸ h ▸ List.mem_singleton_self _)
  | addField =>
    exact .inl (list_withField_of_new rfl fun h => hs (h ▸ List.mem_singleton_self _))
  | @amend old name description configdata found =>
    rw [hc.storedField_eq
      { old with name, description, configdata, timemodified := now } found rfl]
    exact .inl (list_withField_of_found found rfl rfl)
  | removeField found =>
    exact .inl (list_withoutField found fun h => hs (h ▸ List.mem_singleton_self _))
  | rehome found =>
    simp only [List.mem_cons, List.not_mem_nil, or_false, not_or] at hs
    exact .inl (list_rehome found hs.1 hs.2)

/-- A change keeps a catalog contiguous. -/
theorem Change.contiguous (h : Change now area c c') (hp : c.Positive) (hc : c.Contiguous) :
    c'.Contiguous := by
  obtain @⟨scopes, c₁, edit, settled⟩ := h
  rw [contiguous_iff] at hc ⊢
  intro scope
  by_cases hs : scope ∈ scopes
  · exact settled.isContiguous hs
  · -- The listing has not been settled, so the edit has left it alone or emptied it.
    rw [settled.list_eq hs]
    rcases edit.list_eq_or_nil hp hs with heq | hnil
    · rw [heq]
      exact hc scope
    · rw [hnil]
      rfl

end Contents

end FieldCatalog
