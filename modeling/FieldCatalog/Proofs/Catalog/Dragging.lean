import FieldCatalog.Proofs.Catalog.Isolation
import FieldCatalog.Proofs.Listing.Placement

/-!
# Drag and drop

What a drag leads to, whatever order it finds. A drag is refused when its entry does not exist, when
its target is not where the entry is to go, and when a field would leave its area; a refusal changes
nothing. Otherwise the entry is taken out of the order and put back immediately before its target,
or last, and the listings that it has left and entered stand at the positions `0, 1, ..., n - 1`.

## Main definitions

* `Contents.aim`: the category that a drag of a field is aimed at
* `Contents.Carried`: what a drag of a field into a category leads to
* `Contents.disordered`: contents with gaps, equal positions and negative ones

## Main results

* `Statement.on_carryField`, `Statement.on_repositionField_carried`: a field that may go to a category is
  carried there
* `Catalog.dragCategory_outcomes`, `Catalog.dragField_outcomes`: the outcomes of a drag
-/

namespace FieldCatalog

namespace Contents

/-- Two areas, whose rows have positions that no catalog would have left behind. -/
def disordered : Contents where
  categories := ⟨[⟨-3, "General", "", ⟨"core", "course", 0⟩, 7, 5, 5⟩,
    ⟨0, "Planning", "", ⟨"core", "course", 0⟩, 7, 5, 5⟩,
    ⟨2, "Grading", "", ⟨"core", "course", 0⟩, -4, 5, 5⟩,
    ⟨3, "Profile", "", ⟨"core", "user", 0⟩, 1, 5, 5⟩], by decide⟩
  fields := ⟨[⟨1, "level", "Level", "text", "", -3, 9, "\x7b\x7d", 5, 5⟩,
    ⟨2, "credits", "Credits", "text", "", -3, 9, "\x7b\x7d", 5, 5⟩,
    ⟨4, "start", "Start", "date", "", 0, -1, "\x7b\x7d", 5, 5⟩,
    ⟨5, "nickname", "Nickname", "text", "", 3, 0, "\x7b\x7d", 5, 5⟩], by decide⟩

variable {c : Contents} {area : Area}

/-! ## Categories -/

/-- A target that does not exist, or that lies in another area, is refused. -/
theorem admits_eq_error {row : Category} {target : Id}
    (h : ∀ other, c.category? target = some other → other.area ≠ row.area) :
    c.admits row (some target) = .error (.invalidTarget row.id target) := by
  rw [admits]
  cases hother : c.category? target with
  | none => rfl
  | some other =>
    exact if_neg fun hscope => h other hother (Scope.categories.inj hscope).symm

/-! ## Fields -/

/-- The category that a drag of a field is aimed at: the one that is named, else that of its target,
else the one that the field lies in. -/
def aim (c : Contents) (field : Field) (categoryid before : Option Id) : Id :=
  (categoryid <|> (before.bind c.field?).map Field.categoryid).getD field.categoryid

/-- What a drag of a field into a category leads to: the field stands there before its target, or
last, it is missed where it has been, and nothing else has changed. -/
structure Carried (c : Contents) (field : Field) (home : Id) (before : Option Id) (c' : Contents) :
    Prop where
  arrives : ∃ order, c'.StandsAs (.fields home) order ∧
    Listing.PlacedBefore ((c.list (.fields home)).map Member.id) field.id before order
  leaves : home ≠ field.categoryid → c'.StandsAs (.fields field.categoryid)
    (((c.list (.fields field.categoryid)).map Member.id).filter (· ≠ field.id))
  lies : (c'.field? field.id).map Field.unplaced = some { field.unplaced with categoryid := home }
  others : ∀ id, id ≠ field.id →
    (c'.field? id).map Field.unplaced = (c.field? id).map Field.unplaced
  categories : c'.categories = c.categories
  elsewhere : ∀ row : Field, row.categoryid ≠ home → row.categoryid ≠ field.categoryid →
    (row ∈ c'.fields ↔ row ∈ c.fields)

variable {field : Field} {home : Id} {categoryid before : Option Id}

theorem aim_none : c.aim field categoryid none = categoryid.getD field.categoryid := by
  cases categoryid <;> rfl

theorem aim_some {target : Id} {row : Field} (h : c.field? target = some row) :
    c.aim field categoryid (some target) = categoryid.getD row.categoryid := by
  rw [aim, Option.bind_some, h]
  cases categoryid <;> rfl

/-- A target that does not stand where the drag is aimed at is refused. -/
theorem destination_eq_error {target : Id} (h : ∀ row, c.field? target = some row →
      row.categoryid ≠ c.aim field categoryid (some target)) :
    c.destination field categoryid (some target) = .error (.invalidTarget field.id target) := by
  rw [destination]
  cases hrow : c.field? target with
  | none => rfl
  | some row =>
    have hne := h row hrow
    rw [aim_some hrow] at hne
    exact if_neg (Ne.symm hne)

/-- A drag whose target stands where it is aimed at goes there, if the field may. -/
theorem destination_eq_reachable (h : ∀ target, before = some target →
      ∃ row, c.field? target = some row ∧ row.categoryid = c.aim field categoryid before) :
    c.destination field categoryid before = c.reachable field (c.aim field categoryid before) := by
  cases before with
  | none => rw [destination, aim_none]
  | some target =>
    obtain ⟨row, hrow, haim⟩ := h target rfl
    rw [← haim]
    rw [aim_some hrow] at haim
    simp only [destination, hrow]
    exact if_pos haim.symm

/-- A field may go to the categories of its area. -/
theorem reachable_eq_ok (belongs : c.areaOf? (.fields field.categoryid) = some area)
    (hhome : c.areaOf? (.fields home) = some area) : c.reachable field home = .ok home := by
  obtain ⟨own, hown, rfl⟩ := category?_of_areaOf? belongs
  obtain ⟨category, hcategory, harea⟩ := category?_of_areaOf? hhome
  unfold reachable
  split
  · rfl
  · simp only [hcategory, hown, harea, if_true]

/-- A field may not go to a category that is missing or lies in another area. -/
theorem reachable_eq_error (belongs : c.areaOf? (.fields field.categoryid) = some area)
    (hhome : c.areaOf? (.fields home) ≠ some area) :
    ∃ text, c.reachable field home = .error (.invalidScope text) := by
  have hne : home ≠ field.categoryid := fun he => hhome (he ▸ belongs)
  obtain ⟨own, hown, rfl⟩ := category?_of_areaOf? belongs
  unfold reachable
  rw [if_neg hne]
  cases hcategory : c.category? home with
  | none => exact ⟨_, rfl⟩
  | some category =>
    have harea : own.area ≠ category.area := by
      rintro he
      rw [areaOf?, hcategory, Option.map_some, he] at hhome
      exact hhome rfl
    simp only [hown, if_neg harea]
    exact ⟨_, rfl⟩

variable {now : Int} {order : List Member}

/-- A drag within a category. -/
theorem carried_self (now : Int) (hfield : c.field? field.id = some field)
    (ho : Listing.dragged (c.list (.fields field.categoryid)) field.id before = some order) :
    c.Carried field field.categoryid before (c.settle now .field order) := by
  have hperm := Listing.perm_of_dragged (c.nodup_ids_list (.fields field.categoryid)) ho
  have hlisted := Statement.mem_ids_of_field? hfield
  exact
    { arrives := ⟨_, standsAs_settle now hperm, Listing.placedBefore_of_dragged hlisted ho⟩
      leaves := fun hne => absurd rfl hne
      lies := ((rearranged_settle c now .field order).fields field.id).trans
        (congrArg (Option.map Field.unplaced) hfield)
      others := fun id _ => (rearranged_settle c now .field order).fields id
      categories := rfl
      elsewhere := fun row hne _ => mem_fields_settle hperm hne }

/-! A field that changes its category stands in the listing of the new one, at the position it had
in the old one, until the order of the drag is settled. -/

section Rehome

variable (now) (hfield : c.field? field.id = some field)
include hfield

/-- A field that changes its category stays what it is otherwise, and the others stay what they
are. -/
theorem field?_rehome (id : Id) : (c.rehome field.id home now).field? id =
    if id = field.id then some (field.rehome home now) else c.field? id := by
  split
  · next hid =>
    subst hid
    have hkeeps := Field.id_rehome home now
    exact (c.fields.find?_modify_self _ _ hkeeps).trans (congrArg (Option.map _) hfield)
  · next hid => exact c.fields.find?_modify_of_ne _ (Field.id_rehome home now) hid

theorem mem_fields_rehome_of_ne {row : Field} (hhome : row.categoryid ≠ home)
    (hown : row.categoryid ≠ field.categoryid) :
    row ∈ (c.rehome field.id home now).fields ↔ row ∈ c.fields := by
  rw [mem_rehome]
  constructor
  · rintro (⟨hrow, -⟩ | ⟨old, -, -, rfl⟩)
    · exact hrow
    · exact absurd rfl hhome
  · refine fun hrow => .inl ⟨hrow, fun hid => hown ?_⟩
    rw [Table.eq_of_key_eq hrow (field?_eq_some_iff.mp hfield).1 hid]

variable (hne : home ≠ field.categoryid)
include hne

omit now in
/-- A field is not listed in another category than its own. -/
theorem ne_id_of_mem_list_fields {m : Member} (hm : m ∈ c.list (.fields home)) :
    m.id ≠ field.id := by
  intro hid
  have hmember : field.member ∈ c.list (.fields field.categoryid) :=
    mem_list_fields.mpr ⟨field, (field?_eq_some_iff.mp hfield).1, rfl, rfl⟩
  exact hne (Scope.fields.inj (list_unique hm hmember rfl hid).1)

/-- The category that a field goes to lists the others as before. -/
theorem others_list_rehome :
    ((c.rehome field.id home now).list (.fields home)).filter (fun m => m.id != field.id) =
      c.list (.fields home) := by
  have hother : ∀ m ∈ c.list (.fields home), m.id ≠ field.id := fun m =>
    ne_id_of_mem_list_fields hfield hne
  refine filter_list_of_mem_iff (m := field.member) (c.pairwise_list _) hother fun m => ?_
  rw [mem_list_rehome hfield]
  constructor
  · rintro (⟨hm, -⟩ | ⟨-, rfl⟩)
    · exact .inr hm
    · exact .inl rfl
  · rintro (rfl | hm)
    · exact .inr ⟨rfl, rfl⟩
    · exact .inl ⟨hm, hother m hm⟩

/-- The category that a field has left lists the others as before. -/
theorem list_rehome_left : (c.rehome field.id home now).list (.fields field.categoryid) =
    (c.list (.fields field.categoryid)).filter fun m => m.id != field.id := by
  refine list_eq ((c.pairwise_list _).filter _) fun m => ?_
  rw [mem_list_rehome hfield, List.mem_filter, bne_iff_ne]
  exact or_iff_left fun h => hne h.1.symm

/-- In the category that a field goes to, the order of the drag puts it before its target. -/
theorem placedBefore_rehome (hb : ∀ target, before = some target →
      target ∈ (c.list (.fields home)).map Member.id)
    (ho : Listing.dragged ((c.rehome field.id home now).list (.fields home)) field.id before =
      some order) :
    Listing.PlacedBefore ((c.list (.fields home)).map Member.id) field.id before
      (order.map Member.id) := by
  -- The field has not been listed there, so that it is no target of its own.
  have hself : before ≠ some field.id := by
    intro he
    obtain ⟨m, hm, hid⟩ := List.mem_map.mp (hb field.id he)
    exact ne_id_of_mem_list_fields hfield hne hm hid
  have hlisted : field.id ∈ ((c.rehome field.id home now).list (.fields home)).map Member.id :=
    List.mem_map.mpr ⟨field.member, (mem_list_rehome hfield).mpr (.inr ⟨rfl, rfl⟩), rfl⟩
  refine (Listing.placedBefore_of_dragged hlisted ho).of_filter hself ?_
  rw [← others_list_rehome now hfield hne, Listing.map_id_others, List.filter_filter]
  simp

end Rehome

/-- A drag into another category. -/
theorem carried_of_ne (now : Int) (hfield : c.field? field.id = some field)
    (hne : home ≠ field.categoryid) (hb : ∀ target, before = some target →
      target ∈ (c.list (.fields home)).map Member.id)
    (ho : Listing.dragged ((c.rehome field.id home now).list (.fields home)) field.id before =
      some order) :
    c.Carried field home before
      (((c.rehome field.id home now).settle now .field order).settle now .field
        (((c.rehome field.id home now).settle now .field order).list
          (.fields field.categoryid))) := by
  have hscope : Scope.fields home ≠ .fields field.categoryid := fun h => hne (Scope.fields.inj h)
  -- First the category that the field goes to is settled, and then the one that it has left.
  have hperm := Listing.perm_of_dragged (nodup_ids_list _ (.fields home)) ho
  have hleft : ((c.rehome field.id home now).settle now .field order).list
        (.fields field.categoryid) =
      (c.list (.fields field.categoryid)).filter fun m => m.id != field.id :=
    (list_settle_of_ne hperm hscope.symm).trans (list_rehome_left now hfield hne)
  have hperm' := List.Perm.of_eq hleft.symm
  rw [hleft]
  have hfields := ((rearranged_settle (c.rehome field.id home now) now .field order).trans
    (rearranged_settle _ now .field
      ((c.list (.fields field.categoryid)).filter fun m => m.id != field.id))).fields
  refine
    { arrives := ⟨order.map Member.id, standsAs_of_list_eq_ranked ?_,
        placedBefore_rehome now hfield hne hb ho⟩
      leaves := fun _ => ?_
      lies := ?_
      others := fun id hid => ?_
      categories := rfl
      elsewhere := fun row hhome hown => ?_ }
  · exact (list_settle_of_ne hperm' hscope).trans (list_settle now hperm)
  · rw [← Listing.map_id_others]
    exact standsAs_settle now hperm'
  · rw [hfields, field?_rehome now hfield, if_pos rfl]
    rfl
  · rw [hfields, field?_rehome now hfield, if_neg hid]
  · rw [mem_fields_settle hperm' hown, mem_fields_settle hperm hhome,
      mem_fields_rehome_of_ne now hfield hhome hown]

end Contents

namespace Statement

open Contents

variable {c : Contents} {field : Field} {home : Id} {before : Option Id}

/-- A field that may go to a category is carried there. -/
theorem on_carryField (now : Int) (hfield : c.field? field.id = some field)
    (hr : c.reachable field home = .ok home) (hb : ∀ target, Listing.target before = some target →
      target ∈ (c.list (.fields home)).map Member.id) :
    ∃ c', (carryField field.id field.scope (.fields home) before now).on c = (.ok (), c') ∧
      c.Carried field home (Listing.target before) c' := by
  by_cases hne : home = field.categoryid
  · subst hne
    obtain ⟨order, ho, hon⟩ := on_carryField_self now hfield hb
    exact ⟨_, hon, carried_self now hfield ho⟩
  · obtain ⟨order, ho, hon⟩ := on_carryField_of_ne now hfield hr hne hb
    exact ⟨_, hon, carried_of_ne now hfield hne hb ho⟩

/-- A drag of a field with a destination carries it there. -/
theorem on_repositionField_carried (now : Int) {categoryid : Option Id}
    (hfield : c.field? field.id = some field)
    (hdestination : c.destination field categoryid before = .ok home) :
    ∃ c', (repositionField field.id categoryid before now).on c = (.ok (), c') ∧
      c.Carried field home (Listing.target before) c' := by
  obtain ⟨hon, hreachable, hb⟩ := on_repositionField_of_ok now hfield hdestination
  obtain ⟨c', hcarry, hcarried⟩ := on_carryField now hfield hreachable fun target ht =>
    hb target (Option.filter_eq_some_iff.mp ht).1
  exact ⟨c', hon.trans hcarry, hcarried⟩

end Statement

/-! ## The outcomes of a drag -/

namespace Catalog

open Contents Statement Listing

variable {σ : Type} {k : Circumstances σ} {h : Holdings σ}

/-- While nobody else holds the write lock, a category that exists is dragged before any other
category of its area, and to the end without a target. -/
theorem dragCategory_outcomes (hheld : k.heldElsewhere = false) (id : Id) (before : Option Id) :
    (h.contents.category? id = none →
      (dragCategory id before).run k h = (.error (.notFound .category id), h)) ∧
    ∀ row, h.contents.category? id = some row →
      (∀ b, target before = some b →
        (∀ other, h.contents.category? b = some other → other.area ≠ row.area) →
          (dragCategory id before).run k h = (.error (.invalidTarget id b), h)) ∧
      ((∀ b, target before = some b →
        ∃ other, h.contents.category? b = some other ∧ other.area = row.area) →
          ∃ c' order, (dragCategory id before).run k h = (.ok (), { h with contents := c' }) ∧
            PlacedBefore ((h.contents.list (.categories row.area)).map Member.id) id (target before)
              order ∧
            c'.StandsAs (.categories row.area) order ∧ c'.fields = h.contents.fields ∧
            (∀ other : Category, other.area ≠ row.area →
              (other ∈ c'.categories ↔ other ∈ h.contents.categories)) ∧
            h.contents.Rearranged c') := by
  refine ⟨fun hnone => ?_, fun row hrow => ⟨fun b hb hbad => ?_, fun hgood => ?_⟩⟩
  · exact Call.run_mutate_of_error hheld (on_repositionCategory_of_none hnone)
  · obtain ⟨-, rfl⟩ := category?_eq_some_iff.mp hrow
    refine Call.run_mutate_of_error hheld (on_repositionCategory_of_error hrow ?_)
    rw [hb]
    exact admits_eq_error hbad
  · obtain ⟨order, ho, hon⟩ :=
      on_repositionCategory_of_ok k.now hrow (admits_eq_ok_iff.mpr hgood)
    rw [target_target] at ho
    have hperm := perm_of_dragged (h.contents.nodup_ids_list (.categories row.area)) ho
    exact ⟨_, _, Call.run_mutate_of_ok hheld hon,
      placedBefore_of_dragged (mem_ids_of_category? hrow) ho, standsAs_settle k.now hperm, rfl,
      fun other hne => mem_categories_settle hperm hne, rearranged_settle _ k.now _ order⟩

theorem dragCategory_outcomes_disordered :
    let k : Circumstances Unit := ⟨.builtin, 3, false, 6⟩
    let h : Holdings Unit := ⟨.disordered, ()⟩
    (dragCategory 1 none).run k h = (.error (.notFound .category 1), h) ∧
      (dragCategory 0 (some 3)).run k h = (.error (.invalidTarget 0 3), h) ∧
      ∃ c' order, (dragCategory 0 (some 2)).run k h = (.ok (), { h with contents := c' }) ∧
        PlacedBefore [2, -3, 0] 0 (some 2) order ∧
        c'.StandsAs (.categories ⟨"core", "course", 0⟩) order := by
  intro k h
  refine ⟨(dragCategory_outcomes (k := k) (h := h) rfl 1 none).1 rfl,
    ((dragCategory_outcomes (k := k) (h := h) rfl 0 (some 3)).2 _ rfl).1 3 rfl ?_, ?_⟩
  · intro other hother
    obtain rfl := Option.some.inj hother
    decide
  · obtain ⟨c', order, hrun, hplaced, hstands, -⟩ :=
      ((dragCategory_outcomes (k := k) (h := h) rfl 0 (some 2)).2 _ rfl).2 (by
        intro b hb
        obtain rfl := Option.some.inj hb
        exact ⟨_, rfl, rfl⟩)
    exact ⟨c', order, hrun, hplaced, hstands⟩

/-- While nobody else holds the write lock, a field that exists is dragged before any other field of
its area, and to the end of any category of its area. What is wrong with its target is told before
what is wrong with its category. -/
theorem dragField_outcomes (hc : h.contents.Referential) (hheld : k.heldElsewhere = false) (id : Id)
    (categoryid before : Option Id) :
    (h.contents.field? id = none →
      (dragField id categoryid before).run k h = (.error (.notFound .field id), h)) ∧
    ∀ field, h.contents.field? id = some field →
      let home := h.contents.aim field categoryid (target before)
      (∀ b, target before = some b →
        (∀ other, h.contents.field? b = some other → other.categoryid ≠ home) →
          (dragField id categoryid before).run k h = (.error (.invalidTarget id b), h)) ∧
      ((∀ b, target before = some b →
        ∃ other, h.contents.field? b = some other ∧ other.categoryid = home) →
          (h.contents.areaOf? (.fields home) ≠ h.contents.areaOf? (.fields field.categoryid) →
            ∃ text, (dragField id categoryid before).run k h = (.error (.invalidScope text), h)) ∧
          (h.contents.areaOf? (.fields home) = h.contents.areaOf? (.fields field.categoryid) →
            ∃ c', (dragField id categoryid before).run k h = (.ok (), { h with contents := c' }) ∧
              h.contents.Carried field home (target before) c')) := by
  refine ⟨fun hnone => ?_, fun field hfield => ?_⟩
  · exact Call.run_mutate_of_error hheld (on_repositionField_of_none hnone)
  · obtain ⟨area, belongs⟩ := hc.areaOf?_eq_some hfield
    obtain ⟨-, rfl⟩ := field?_eq_some_iff.mp hfield
    intro home
    rw [belongs]
    refine ⟨fun b hb hbad => ?_, fun hgood => ⟨fun hhome => ?_, fun hhome => ?_⟩⟩
    · refine Call.run_mutate_of_error hheld (on_repositionField_of_error hfield ?_)
      simp only [home, hb] at hbad ⊢
      exact destination_eq_error hbad
    · obtain ⟨text, hr⟩ := reachable_eq_error belongs hhome
      refine ⟨text, Call.run_mutate_of_error hheld (on_repositionField_of_error hfield ?_)⟩
      exact (destination_eq_reachable hgood).trans hr
    · have hr := reachable_eq_ok belongs hhome
      obtain ⟨hon, -, hb⟩ :=
        on_repositionField_of_ok k.now hfield ((destination_eq_reachable hgood).trans hr)
      rw [← target_target before] at hb
      obtain ⟨c', hcarry, hcarried⟩ := on_carryField k.now hfield hr hb
      rw [target_target] at hcarried
      exact ⟨c', Call.run_mutate_of_ok hheld (hon.trans hcarry), hcarried⟩

theorem dragField_outcomes_disordered :
    let k : Circumstances Unit := ⟨.builtin, 3, false, 6⟩
    let h : Holdings Unit := ⟨.disordered, ()⟩
    (dragField 3 none none).run k h = (.error (.notFound .field 3), h) ∧
      (dragField 4 (some 0) (some 2)).run k h = (.error (.invalidTarget 4 2), h) ∧
      (∃ text, (dragField 4 (some 3) none).run k h = (.error (.invalidScope text), h)) ∧
      ∃ c' order, (dragField 4 none (some 2)).run k h = (.ok (), { h with contents := c' }) ∧
        PlacedBefore [1, 2] 4 (some 2) order ∧ c'.StandsAs (.fields (-3)) order := by
  intro k h
  have hc : h.contents.Referential := by decide
  refine ⟨(dragField_outcomes (k := k) hc rfl 3 none none).1 rfl,
    ((dragField_outcomes (k := k) hc rfl 4 (some 0) (some 2)).2 _ rfl).1 2 rfl ?_,
    ((dragField_outcomes (k := k) hc rfl 4 (some 3) none).2 _ rfl).2 ?_ |>.1 ?_, ?_⟩
  · intro other hother
    obtain rfl := Option.some.inj hother
    decide
  · exact fun b hb => nomatch hb
  · decide
  · obtain ⟨c', hrun, hcarried⟩ :=
      (((dragField_outcomes (k := k) hc rfl 4 none (some 2)).2 _ rfl).2 (by
        intro b hb
        obtain rfl := Option.some.inj hb
        exact ⟨_, rfl, rfl⟩)).2 rfl
    obtain ⟨order, hstands, hplaced⟩ := hcarried.arrives
    exact ⟨c', order, hrun, hplaced, hstands⟩

end Catalog

end FieldCatalog
