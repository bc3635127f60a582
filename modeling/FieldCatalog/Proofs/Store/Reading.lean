import FieldCatalog.Proofs.Store.Rearrangement
import Mathlib.Data.List.Perm.Basic

/-!
# Reads that agree

A catalog is read in several ways: listed, counted, as rows, as the configuration of an area, and by
short name. All of them tell of the same rows in the same order. The rows fall into areas, and the
configurations of the areas show each of them once, provided that every field lies in an existing
category.

## Main definitions

* `Listing.Lists`: rows of some kind in the order of their listing

## Main results

* `Contents.perm_flatMap_categoriesOf`, `Contents.perm_flatMap_fieldsOf`: the rows, area by area and
  category by category
* `Contents.mem_configuration_iff`: the fields in the categories of an area
* `Contents.fieldByShortname_eq_find?`: looking for a short name is searching a configuration
* `Contents.reads_agree`: all reads agree
-/

namespace FieldCatalog

/-! ## Rows class by class -/

/-- Elements taken class by class are the elements, if the classes are different and none is left
out. -/
theorem perm_flatMap_filter {α β : Type} [DecidableEq β] {f : α → β} {classes : List β}
    (hclasses : classes.Nodup) {l : List α} (h : ∀ x ∈ l, f x ∈ classes) :
    (classes.flatMap fun b => l.filter fun x => f x = b).Perm l := by
  -- Induction on the classes, for all elements: what is not in the first class is in the others.
  induction classes generalizing l with
  | nil =>
    rw [List.eq_nil_iff_forall_not_mem.mpr fun x hx => List.not_mem_nil (h x hx)]
    exact .refl _
  | cons b others ih =>
    obtain ⟨hb, hothers⟩ := List.nodup_cons.mp hclasses
    have hleft : ∀ x ∈ l.filter fun x => !decide (f x = b), f x ∈ others := by
      intro x hx
      obtain ⟨hmem, hne⟩ := List.mem_filter.mp hx
      exact (List.mem_cons.mp (h x hmem)).resolve_left (by simpa using hne)
    have hclass : ∀ b' ∈ others, (l.filter fun x => decide (f x = b')) =
        (l.filter fun x => !decide (f x = b)).filter fun x => decide (f x = b') := by
      intro b' hb'
      rw [List.filter_filter]
      refine List.filter_congr fun x _ => ?_
      by_cases hx : f x = b'
      · have hne : b' ≠ b := fun he => hb (he ▸ hb')
        simp [hx, hne]
      · simp [hx]
    rw [List.flatMap_cons, List.flatMap_congr hclass]
    exact ((ih hothers hleft).append_left _).trans (List.filter_append_perm _ l)

namespace Listing

/-- Rows of some kind are listed: just those of the kind, by ascending position and at one position by
ascending number. -/
structure Lists {α : Type} (member : α → Member) (kind : α → Prop) (rows : List α) : Prop where
  ordered : rows.Pairwise fun a b => (member a).Precedes (member b)
  exact : ∀ row, row ∈ rows ↔ kind row

end Listing

namespace Contents

open Listing (Lists)

variable {c : Contents} {area : Area}

/-! ## Listings -/

/-- The categories of an area are listed. -/
theorem lists_categoriesOf (c : Contents) (area : Area) :
    Lists Category.member (fun row => row ∈ c.categories ∧ row.area = area) (c.categoriesOf area) :=
  ⟨c.pairwise_categoriesOf area, fun _ => mem_categoriesOf⟩

/-- The fields of a category are listed. -/
theorem lists_fieldsOf (c : Contents) (id : Id) :
    Lists Field.member (fun row => row ∈ c.fields ∧ row.categoryid = id) (c.fieldsOf id) :=
  ⟨c.pairwise_fieldsOf id, fun _ => mem_fieldsOf⟩

theorem lists_list_categories (c : Contents) (area : Area) :
    Lists id (fun m => ∃ row ∈ c.categories, row.area = area ∧ row.member = m)
      (c.list (.categories area)) :=
  ⟨c.pairwise_list _, fun _ => mem_list_categories⟩

theorem lists_list_fields (c : Contents) (categoryid : Id) :
    Lists id (fun m => ∃ row ∈ c.fields, row.categoryid = categoryid ∧ row.member = m)
      (c.list (.fields categoryid)) :=
  ⟨c.pairwise_list _, fun _ => mem_list_fields⟩

/-- As many entries are counted as are listed. -/
theorem count_eq_length_list (c : Contents) (scope : Scope) :
    c.count scope = (c.list scope).length := by
  cases scope with
  | categories area =>
    rw [count, list, (Listing.perm_arrange _).length_eq, List.length_map,
      List.countP_eq_length_filter]
  | fields home =>
    rw [count, list, (Listing.perm_arrange _).length_eq, List.length_map,
      List.countP_eq_length_filter]

/-! ## Configurations -/

/-- The fields that a configuration shows are those in the categories of the area. -/
theorem mem_configuration_iff {field : Field} :
    (∃ part ∈ c.configuration area, field ∈ part.fields) ↔
      field ∈ c.fields ∧ ∃ home ∈ c.categories, home.id = field.categoryid ∧ home.area = area := by
  constructor
  · rintro ⟨part, hpart, hfield⟩
    obtain ⟨home, hhome, rfl⟩ := List.mem_map.mp hpart
    obtain ⟨hmem, harea⟩ := mem_categoriesOf.mp hhome
    obtain ⟨hstored, hid⟩ := mem_fieldsOf.mp hfield
    exact ⟨hstored, home, hmem, hid.symm, harea⟩
  · rintro ⟨hstored, home, hmem, hid, harea⟩
    exact ⟨⟨home, c.fieldsOf home.id⟩,
      List.mem_map.mpr ⟨home, mem_categoriesOf.mpr ⟨hmem, harea⟩, rfl⟩,
      mem_fieldsOf.mpr ⟨hstored, hid.symm⟩⟩

/-- The categories, area by area. -/
theorem perm_flatMap_categoriesOf {areas : List Area} (hareas : areas.Nodup)
    (h : ∀ row ∈ c.categories, row.area ∈ areas) :
    (areas.flatMap c.categoriesOf).Perm c.categories.rows :=
  (List.Perm.flatMap_left areas fun _ _ => Listing.perm_arrange _).trans
    (perm_flatMap_filter hareas h)

/-- The fields, category by category. -/
theorem perm_flatMap_fieldsOf (h : c.Referential) {rows : List Category}
    (hrows : rows.Perm c.categories.rows) :
    (rows.flatMap fun row => c.fieldsOf row.id).Perm c.fields.rows := by
  have hhomes : ∀ field ∈ c.fields.rows, field.categoryid ∈ c.categories.rows.map Category.id := by
    intro field hfield
    obtain ⟨home, hhome, hid⟩ := h field hfield
    exact List.mem_map.mpr ⟨home, hhome, hid⟩
  have harranged : ((rows.map Category.id).flatMap c.fieldsOf).Perm
      ((rows.map Category.id).flatMap fun id =>
        c.fields.rows.filter fun row => row.categoryid = id) :=
    List.Perm.flatMap_left _ fun _ _ => Listing.perm_arrange _
  rw [List.flatMap_map] at harranged
  exact (harranged.trans ((hrows.map Category.id).flatMap_right _)).trans
    (perm_flatMap_filter c.categories.nodup_keys hhomes)

/-- The fields of a category under a short name are listed as they are among all of its fields. -/
theorem arrange_fields_of_shortname (c : Contents) (id : Id) (shortname : String) :
    Listing.arrange Field.member
        (c.fields.rows.filter fun row => row.categoryid = id ∧ row.shortname = shortname) =
      (c.fieldsOf id).filter fun row => row.shortname == shortname := by
  rw [fieldsOf, ← Listing.arrange_filter (c.fields.pairwise_filter_key_ne _), List.filter_filter]
  refine congrArg _ (List.filter_congr fun row _ => ?_)
  rw [Bool.decide_and, Bool.and_comm, beq_eq_decide]

/-- Looking for a short name is searching the configuration of the area for it. -/
theorem fieldByShortname_eq_find? (c : Contents) (area : Area) (shortname : String) :
    c.fieldByShortname area shortname =
      ((c.configuration area).flatMap Section.fields).find? fun field =>
        field.shortname == shortname := by
  calc c.fieldByShortname area shortname
      = ((c.categoriesOf area).flatMap fun home =>
          (c.fieldsOf home.id).filter fun row => row.shortname == shortname).head? := by
        simp only [fieldByShortname, arrange_fields_of_shortname, categoriesOf]
    _ = (((c.configuration area).flatMap Section.fields).filter fun row =>
          row.shortname == shortname).head? := by
        rw [configuration, List.flatMap_map, List.filter_flatMap]
    _ = _ := List.head?_filter

/-- A field is found under a short name just when a configuration shows one of the name, and then it
is one of those. -/
theorem fieldByShortname_found (c : Contents) (area : Area) (shortname : String) :
    ((c.fieldByShortname area shortname).isSome = true ↔
      ∃ part ∈ c.configuration area, ∃ field ∈ part.fields, field.shortname = shortname) ∧
    ∀ field, c.fieldByShortname area shortname = some field → field.shortname = shortname ∧
      ∃ part ∈ c.configuration area, field ∈ part.fields := by
  rw [fieldByShortname_eq_find?]
  refine ⟨?_, fun field hfield => ⟨by simpa using List.find?_some hfield, ?_⟩⟩
  · simp only [List.find?_isSome, List.mem_flatMap, beq_iff_eq]
    constructor
    · rintro ⟨field, ⟨part, hpart, hfield⟩, hname⟩
      exact ⟨part, hpart, field, hfield, hname⟩
    · rintro ⟨part, hpart, field, hfield, hname⟩
      exact ⟨field, ⟨part, hpart, hfield⟩, hname⟩
  · exact List.mem_flatMap.mp (List.mem_of_find?_eq_some hfield)

/-- A field is found under a short name just when a field in some category of the area has it. -/
theorem isSome_fieldByShortname_iff {shortname : String} :
    (c.fieldByShortname area shortname).isSome = true ↔
      ∃ field ∈ c.fields, field.shortname = shortname ∧
        ∃ home ∈ c.categories, home.id = field.categoryid ∧ home.area = area := by
  rw [(c.fieldByShortname_found area shortname).1]
  constructor
  · rintro ⟨part, hpart, field, hfield, hname⟩
    obtain ⟨hstored, hhome⟩ := mem_configuration_iff.mp ⟨part, hpart, hfield⟩
    exact ⟨field, hstored, hname, hhome⟩
  · rintro ⟨field, hstored, hname, hhome⟩
    obtain ⟨part, hpart, hfield⟩ := mem_configuration_iff.mpr ⟨hstored, hhome⟩
    exact ⟨part, hpart, field, hfield, hname⟩

/-- All reads of a catalog agree, whatever its numbers and positions are. What is listed for the
categories of an area, and for the fields of a category, are the rows that are answered, in the same
order, and as many as are counted; it does not matter whether they are drawn from the table as entries
and then put in order, or the other way round. A configuration is made of them. Over any areas among which are
those of all categories, the configurations show each category and each field once. A short name finds
a field of the configuration if there is one of the name, which is to say one whose category lies in
the area. -/
theorem reads_agree (c : Contents) (h : c.Referential) :
    (∀ area,
      Lists Category.member (fun row => row ∈ c.categories ∧ row.area = area) (c.categoriesOf area) ∧
      Lists id (fun m => ∃ row ∈ c.categories, row.area = area ∧ row.member = m)
        (c.list (.categories area)) ∧
      c.list (.categories area) = (c.categoriesOf area).map Category.member ∧
      c.list (.categories area) = Listing.arrange id
        ((c.categories.rows.filter fun row => row.area = area).map Category.member) ∧
      c.count (.categories area) = (c.list (.categories area)).length) ∧
    (∀ categoryid,
      Lists Field.member (fun row => row ∈ c.fields ∧ row.categoryid = categoryid)
        (c.fieldsOf categoryid) ∧
      Lists id (fun m => ∃ row ∈ c.fields, row.categoryid = categoryid ∧ row.member = m)
        (c.list (.fields categoryid)) ∧
      c.list (.fields categoryid) = (c.fieldsOf categoryid).map Field.member ∧
      c.list (.fields categoryid) = Listing.arrange id
        ((c.fields.rows.filter fun row => row.categoryid = categoryid).map Field.member) ∧
      c.count (.fields categoryid) = (c.list (.fields categoryid)).length) ∧
    (∀ area, c.configuration area =
      (c.categoriesOf area).map fun category => ⟨category, c.fieldsOf category.id⟩) ∧
    (∀ areas : List Area, areas.Nodup → (∀ row ∈ c.categories, row.area ∈ areas) →
      ((areas.flatMap c.configuration).map Section.category).Perm c.categories.rows ∧
      ((areas.flatMap c.configuration).flatMap Section.fields).Perm c.fields.rows) ∧
    ∀ area shortname,
      ((c.fieldByShortname area shortname).isSome = true ↔
        ∃ part ∈ c.configuration area, ∃ field ∈ part.fields, field.shortname = shortname) ∧
      (∀ field, c.fieldByShortname area shortname = some field → field.shortname = shortname ∧
        ∃ part ∈ c.configuration area, field ∈ part.fields) ∧
      ∀ field, (∃ part ∈ c.configuration area, field ∈ part.fields) ↔
        field ∈ c.fields ∧ ∃ home ∈ c.categories, home.id = field.categoryid ∧ home.area = area := by
  refine ⟨fun area => ?_, fun categoryid => ?_, fun _ => rfl, fun areas hareas hall => ?_,
    fun area shortname => ?_⟩
  · exact ⟨c.lists_categoriesOf area, c.lists_list_categories area, c.list_categories area, rfl,
      c.count_eq_length_list _⟩
  · exact ⟨c.lists_fieldsOf categoryid, c.lists_list_fields categoryid, c.list_fields categoryid, rfl,
      c.count_eq_length_list _⟩
  · have hrows := perm_flatMap_categoriesOf hareas hall
    have hcategories : (areas.flatMap c.configuration).map Section.category =
        areas.flatMap c.categoriesOf := by
      simp only [List.map_flatMap, configuration, List.map_map, Function.comp_def, List.map_id']
    have hfields : (areas.flatMap c.configuration).flatMap Section.fields =
        (areas.flatMap c.categoriesOf).flatMap fun row => c.fieldsOf row.id := by
      simp only [List.flatMap_assoc, configuration, List.flatMap_map]
    rw [hcategories, hfields]
    exact ⟨hrows, perm_flatMap_fieldsOf h hrows⟩
  · obtain ⟨hsome, hfound⟩ := c.fieldByShortname_found area shortname
    exact ⟨hsome, hfound, fun _ => mem_configuration_iff⟩

/-- Two categories stand at one position, and two fields of the area have one short name. -/
theorem reads_agree_sample :
    let course : Area := ⟨"core", "course", 0⟩
    let user : Area := ⟨"core", "user", 0⟩
    let c : Contents :=
      { categories := ⟨[⟨-3, "General", "", course, 7, 5, 5⟩, ⟨2, "Grading", "", course, 7, 5, 5⟩,
          ⟨3, "Profile", "", user, -1, 5, 5⟩], by decide⟩
        fields := ⟨[⟨1, "level", "Level", "text", "", 2, 9, "\x7b\x7d", 5, 5⟩,
          ⟨4, "level", "Level", "text", "", -3, 9, "\x7b\x7d", 5, 5⟩,
          ⟨5, "nickname", "Nickname", "text", "", 3, 0, "\x7b\x7d", 5, 5⟩], by decide⟩ }
    c.Referential ∧ c.list (.categories course) = [⟨-3, 7⟩, ⟨2, 7⟩] ∧
      c.count (.categories course) = (c.list (.categories course)).length ∧
      (([user, course].flatMap c.configuration).flatMap Section.fields).Perm c.fields.rows ∧
      (∃ field, c.fieldByShortname course "level" = some field ∧ field.shortname = "level" ∧
        ∃ part ∈ c.configuration course, field ∈ part.fields) ∧
      (c.fieldByShortname course "nickname").isSome = false := by
  intro course user c
  have hc : c.Referential := by decide
  obtain ⟨hcategories, -, -, hareas, hnames⟩ := reads_agree c hc
  obtain ⟨-, -, -, -, hcount⟩ := hcategories course
  obtain ⟨field, hfield⟩ : ∃ field, c.fieldByShortname course "level" = some field :=
    Option.isSome_iff_exists.mp (by decide)
  exact ⟨hc, by decide, hcount, (hareas [user, course] (by decide) (by decide)).2,
    ⟨field, hfield, (hnames course "level").2.1 field hfield⟩, by decide⟩

end Contents

end FieldCatalog
