import FieldCatalog.Proofs.Catalog.Change
import FieldCatalog.Proofs.FieldType.Refusal

/-!
# What the statements guarantee

A statement of the catalog either refuses its arguments and leaves the contents as they are, or
succeeds and leads to a change in the area it concerns. It never fails for reasons of the store.

## Main definitions

* `Statement.Ensures`: a postcondition, with refusals that change nothing
* `Contents.Moved`: a change in the area of an entry that stays in its area

## Main results

* `Statement.ensures_addCategory`, `Statement.ensures_retitleCategory`,
  `Statement.ensures_removeCategory`, `Statement.ensures_shiftCategory`,
  `Statement.ensures_repositionCategory`: the statements on categories
* `Statement.ensures_addField`, `Statement.ensures_removeField`, `Statement.ensures_shiftField`,
  `Statement.ensures_repositionField`: the statements on fields
* `Statement.ensures_renumberArea`: the statement on a whole area
-/

namespace FieldCatalog

namespace Contents

variable {now : Int} {area : Area} {kind : Kind} {id : Id} {scope : Scope} {scopes : List Scope}
  {c c' : Contents}

/-- A change in the area of an entry, which still belongs there afterwards. -/
def Moved (now : Int) (kind : Kind) (id : Id) (c c' : Contents) : Prop :=
  ∃ area, c.entryArea? kind id = some area ∧ Change now area c c' ∧
    c'.entryArea? kind id = some area

theorem moved_of_settled (h : c.entryArea? kind id = some area)
    (settled : Settled now area scopes c c') : Moved now kind id c c' :=
  ⟨area, h, .of_settled settled, (settled.rearranged.entryArea?_eq kind id).trans h⟩

theorem entryArea?_category {row : Category} (h : c.category? id = some row) :
    c.entryArea? .category id = some row.area := by
  rw [entryArea?, h, Option.map_some]

theorem entryArea?_field {row : Field} (h : c.field? id = some row) :
    c.entryArea? .field id = c.areaOf? (.fields row.categoryid) := by
  rw [entryArea?, h, Option.bind_some, Field.scope]

/-- The category of a field belongs to an area. -/
theorem Referential.areaOf?_eq_some (h : c.Referential) {row : Field} (hrow : c.field? id = some row) :
    ∃ area, c.areaOf? (.fields row.categoryid) = some area := by
  obtain ⟨home, hhome⟩ := referential_iff.mp h id row hrow
  exact ⟨home.area, congrArg (Option.map Category.area) hhome⟩

/-- Exchanging two neighbours settles their listing twice. -/
theorem settled_exchanged {direction : Direction} {order : List Member}
    (belongs : c.areaOf? scope = some area)
    (h : Listing.exchanged (Listing.ranked (c.list scope)) id direction = some order) :
    Settled now area [scope, scope] c
      ((c.settle now scope.kind (c.list scope)).settle now scope.kind order) := by
  -- The second order permutes the healed listing, and that is the listing after the first settling.
  have hlist := list_settle now (.refl (c.list scope))
  have hnodup : (Listing.ranked (c.list scope)).Nodup := by
    rw [← hlist]
    exact nodup_list _ scope
  have hperm := Listing.perm_of_exchanged hnodup h
  rw [← hlist] at hperm
  have belongs' := ((rearranged_settle c now scope.kind (c.list scope)).areaOf?_eq scope).trans belongs
  exact .step belongs (.refl _) (.one now belongs' hperm)

end Contents

namespace Statement

open Contents

/-- A statement either refuses and changes nothing, or succeeds with an answer and contents of which
a property holds. -/
def Ensures {α : Type} (s : Statement α) (c : Contents) (post : α → Contents → Prop) : Prop :=
  match s.on c with
  | (.ok a, c') => post a c'
  | (.error e, c') => e.isRefusal = true ∧ c' = c

variable {c : Contents} {now : Int} {id : Id} {area : Area}

/-! ## Categories -/

theorem ensures_addCategory {name : Option String} (named : area.check = .ok ()) :
    (addCategory area name now).Ensures c fun category c' =>
      category.area = area ∧ Change now area c c' := by
  have hperm : (c.list (.categories area) ++ [(c.newCategory area name now).member]).Perm
      ((c.withCategory (c.newCategory area name now)).list (.categories area)) :=
    perm_list_withCategory (c.newCategory area name now) rfl
  simp only [Ensures, on_addCategory]
  exact ⟨rfl, .addCategory name named, .one now rfl hperm⟩

theorem ensures_retitleCategory {name : String} (trimmed : Text.IsTrimmed name) :
    (retitleCategory id name now).Ensures c fun category c' =>
      c.entryArea? .category id = some category.area ∧ Change now category.area c c' := by
  simp only [Ensures, on_retitleCategory]
  cases h : c.category? id with
  | none => exact ⟨rfl, rfl⟩
  | some old =>
    obtain ⟨-, rfl⟩ := category?_eq_some_iff.mp h
    have hentry : c.entryArea? .category old.id = some old.area := entryArea?_category h
    exact ⟨hentry, .of_edit (.retitle h rfl trimmed)⟩

theorem ensures_removeCategory :
    (removeCategory id now).Ensures c fun _ c' =>
      c' = c ∨ ∃ area, c.entryArea? .category id = some area ∧ Change now area c c' := by
  simp only [Ensures, on_removeCategory]
  cases h : c.category? id with
  | none => exact .inl rfl
  | some old =>
    -- The listing of the area is settled in the order it has without the category.
    obtain ⟨-, rfl⟩ := category?_eq_some_iff.mp h
    refine .inr ⟨old.area, entryArea?_category h, .removeCategory h rfl, ?_⟩
    have belongs : (c.withoutCategory old.id).areaOf? (.categories old.area) = some old.area := rfl
    exact .one now belongs (.refl _)

theorem ensures_shiftCategory {direction : Direction} :
    (shiftCategory id direction now).Ensures c fun _ c' => Moved now .category id c c' := by
  simp only [Ensures, on_shiftCategory]
  cases h : c.category? id with
  | none => exact ⟨rfl, rfl⟩
  | some old =>
    have belongs : c.areaOf? (.categories old.area) = some old.area := rfl
    cases ho : Listing.exchanged (Listing.ranked (c.list (.categories old.area))) id direction with
    | none =>
      -- At the end of the listing there is no neighbour, and the listing is only healed.
      simp only [ho]
      exact moved_of_settled (entryArea?_category h) (.one now belongs (.refl _))
    | some order =>
      simp only [ho]
      exact moved_of_settled (entryArea?_category h) (settled_exchanged belongs ho)

theorem isRefusal_of_admits {row : Category} {before : Option Id} {e : Failure}
    (h : c.admits row before = .error e) : e.isRefusal = true := by
  unfold admits Scope.ensureSame at h
  repeat' split at h
  all_goals cases h
  all_goals rfl

theorem ensures_repositionCategory {before : Option Id} :
    (repositionCategory id before now).Ensures c fun _ c' => Moved now .category id c c' := by
  unfold Ensures
  cases h : c.category? id with
  | none =>
    rw [on_repositionCategory_of_none h]
    exact ⟨rfl, rfl⟩
  | some old =>
    cases ha : c.admits old before with
    | error e =>
      rw [on_repositionCategory_of_error h ha]
      exact ⟨isRefusal_of_admits ha, rfl⟩
    | ok _ =>
      obtain ⟨order, ho, hon⟩ := on_repositionCategory_of_ok now h ha
      have hperm := Listing.perm_of_dragged (c.nodup_ids_list (.categories old.area)) ho
      rw [hon]
      exact moved_of_settled (entryArea?_category h) (.one now rfl hperm)

/-! ## Fields -/

theorem ensures_addField {categoryid : Id} {draft : Draft} {configdata : String}
    (proper : isShortname draft.shortname.toList = true) (trimmed : Text.IsTrimmed draft.name) :
    (addField categoryid draft configdata now).Ensures c fun field c' =>
      ∃ area, c.areaOf? (.fields categoryid) = some area ∧ Change now area c c' ∧
        c'.entryArea? .field field.id = some area := by
  unfold Ensures
  rw [on_addField]
  cases h : c.category? categoryid with
  | none => exact ⟨rfl, rfl⟩
  | some home =>
    obtain ⟨-, rfl⟩ := category?_eq_some_iff.mp h
    dsimp only
    cases hfree : c.fieldByShortname home.area draft.shortname with
    | some _ => exact ⟨rfl, rfl⟩
    | none =>
      -- The short name is free: the field is added, and settled behind the others.
      have belongs : c.areaOf? (.fields home.id) = some home.area :=
        congrArg (Option.map Category.area) h
      have hperm : (c.list (.fields home.id) ++
          [(c.newField home.id draft configdata now).member]).Perm
            ((c.withField (c.newField home.id draft configdata now)).list (.fields home.id)) :=
        perm_list_withField (c.newField home.id draft configdata now) rfl
      have belongs' : (c.withField (c.newField home.id draft configdata now)).areaOf?
          (.fields home.id) = some home.area := belongs
      have settled := Settled.one now belongs' hperm
      have hentry : (c.withField (c.newField home.id draft configdata now)).entryArea? .field
          (c.newField home.id draft configdata now).id = some home.area :=
        (entryArea?_field (field?_withField _)).trans belongs
      refine ⟨home.area, belongs, ⟨.addField configdata h rfl hfree proper trimmed, settled⟩, ?_⟩
      exact (settled.rearranged.entryArea?_eq .field _).trans hentry

theorem ensures_removeField (hc : c.Referential) :
    (removeField id now).Ensures c fun _ c' =>
      c' = c ∨ ∃ area, c.entryArea? .field id = some area ∧ Change now area c c' := by
  simp only [Ensures, on_removeField]
  cases h : c.field? id with
  | none => exact .inl rfl
  | some old =>
    obtain ⟨area, belongs⟩ := hc.areaOf?_eq_some h
    obtain ⟨-, rfl⟩ := field?_eq_some_iff.mp h
    refine .inr ⟨area, (entryArea?_field h).trans belongs, .removeField h belongs, ?_⟩
    have belongs' : (c.withoutField old.id).areaOf? (.fields old.categoryid) = some area := belongs
    exact .one now belongs' (.refl _)

theorem ensures_shiftField {direction : Direction} (hc : c.Referential) :
    (shiftField id direction now).Ensures c fun _ c' => Moved now .field id c c' := by
  simp only [Ensures, on_shiftField]
  cases h : c.field? id with
  | none => exact ⟨rfl, rfl⟩
  | some old =>
    obtain ⟨area, belongs⟩ := hc.areaOf?_eq_some h
    have hentry := (entryArea?_field h).trans belongs
    cases ho : Listing.exchanged (Listing.ranked (c.list (.fields old.categoryid))) id direction with
    | none =>
      simp only [ho]
      exact moved_of_settled hentry (.one now belongs (.refl _))
    | some order =>
      simp only [ho]
      exact moved_of_settled hentry (settled_exchanged belongs ho)

theorem isRefusal_of_reachable {field : Field} {home : Id} {e : Failure}
    (h : c.reachable field home = .error e) : e.isRefusal = true := by
  unfold reachable at h
  repeat' split at h
  all_goals cases h
  all_goals rfl

theorem isRefusal_of_destination {field : Field} {categoryid before : Option Id} {e : Failure}
    (h : c.destination field categoryid before = .error e) : e.isRefusal = true := by
  unfold destination at h
  repeat' split at h
  · exact isRefusal_of_reachable h
  · cases h
    rfl
  · exact isRefusal_of_reachable h
  · cases h
    rfl

/-- A category within reach of a field lies in the area of the field. -/
theorem areaOf?_of_reachable {field : Field} {home : Id} (h : c.reachable field home = .ok home)
    (belongs : c.areaOf? (.fields field.categoryid) = some area) :
    c.areaOf? (.fields home) = some area := by
  unfold reachable at h
  split at h
  · next heq => exact heq ▸ belongs
  · split at h
    · cases h
    · cases h
    · next category own hhome hown =>
      split at h
      · next harea =>
        rw [areaOf?, hown] at belongs
        rw [areaOf?, hhome, Option.map_some, ← harea]
        exact belongs
      · cases h

theorem entryArea?_rehome {field : Field} {home : Id} (h : c.field? field.id = some field) :
    (c.rehome field.id home now).entryArea? .field field.id = c.areaOf? (.fields home) := by
  have hmem := (field?_eq_some_iff.mp h).1
  have hfind : (c.rehome field.id home now).field? field.id =
      some { field with categoryid := home, timemodified := now } :=
    field?_eq_some_iff.mpr ⟨mem_rehome.mpr (.inr ⟨field, hmem, rfl, rfl⟩), rfl⟩
  exact entryArea?_field hfind

/-- A drag into another category moves the field there and settles both categories. -/
theorem ensures_carryField_of_ne {field : Field} {home : Id} {before : Option Id}
    (h : c.field? field.id = some field) (hr : c.reachable field home = .ok home)
    (hne : home ≠ field.categoryid) (belongs : c.areaOf? (.fields field.categoryid) = some area)
    (hb : ∀ t, Listing.target before = some t → t ∈ (c.list (.fields home)).map Member.id) :
    (carryField field.id (.fields field.categoryid) (.fields home) before now).Ensures c
      fun _ c' => Moved now .field field.id c c' := by
  obtain ⟨order, ho, hon⟩ := on_carryField_of_ne now h hr hne hb
  -- The category of arrival is settled first, then the one that the field has left; both belong to
  -- the area of the field.
  have reaches := areaOf?_of_reachable hr belongs
  have hperm := Listing.perm_of_dragged (nodup_ids_list _ (.fields home)) ho
  have hfirst : Settled now area [.fields home] (c.rehome field.id home now)
      ((c.rehome field.id home now).settle now .field order) := .one now reaches hperm
  have belongs' : ((c.rehome field.id home now).settle now .field order).areaOf?
      (.fields field.categoryid) = some area := (hfirst.rearranged.areaOf?_eq _).trans belongs
  have settled := hfirst.append (.one now belongs' (.refl _))
  have hentry := (settled.rearranged.entryArea?_eq .field field.id).trans
    ((entryArea?_rehome h).trans reaches)
  unfold Ensures
  rw [hon]
  exact ⟨area, (entryArea?_field h).trans belongs, ⟨.rehome h belongs reaches, settled⟩, hentry⟩

theorem ensures_repositionField {categoryid before : Option Id} (hc : c.Referential) :
    (repositionField id categoryid before now).Ensures c fun _ c' => Moved now .field id c c' := by
  cases h : c.field? id with
  | none =>
    unfold Ensures
    rw [on_repositionField_of_none h]
    exact ⟨rfl, rfl⟩
  | some field =>
    obtain ⟨area, belongs⟩ := hc.areaOf?_eq_some h
    obtain ⟨-, rfl⟩ := field?_eq_some_iff.mp h
    cases hd : c.destination field categoryid before with
    | error e =>
      unfold Ensures
      rw [on_repositionField_of_error h hd]
      exact ⟨isRefusal_of_destination hd, rfl⟩
    | ok home =>
      obtain ⟨hon, hr, hb⟩ := on_repositionField_of_ok now h hd
      have hb' : ∀ t, Listing.target before = some t →
          t ∈ (c.list (.fields home)).map Member.id := by
        intro t ht
        obtain ⟨rfl, -⟩ := Option.filter_eq_some_iff.mp ht
        exact hb t rfl
      unfold Ensures
      rw [hon]
      by_cases hne : home = field.categoryid
      · -- The field stays in its category.
        subst hne
        obtain ⟨order, ho, hself⟩ := on_carryField_self now h hb'
        have hperm := Listing.perm_of_dragged (c.nodup_ids_list (.fields field.categoryid)) ho
        rw [Field.scope, hself]
        exact moved_of_settled ((entryArea?_field h).trans belongs) (.one now belongs hperm)
      · exact ensures_carryField_of_ne h hr hne belongs hb'

/-! ## Whole areas -/

/-- Renumbering the fields of categories of an area settles their listings. -/
theorem on_renumberFields (now : Int) {categories : List Category}
    (belongs : ∀ row ∈ categories, c.areaOf? (.fields row.id) = some area) :
    ∃ n scopes c', (renumberFields now categories).on c = (.ok n, c') ∧
      Settled now area scopes c c' := by
  -- Induction on the categories, for all contents: settling the first one leaves every category in
  -- its area, so that the others still belong there.
  induction categories generalizing c with
  | nil => exact ⟨0, [], c, rfl, .refl c⟩
  | cons row rest ih =>
    have hsettle := rearranged_settle c now .field (c.list (.fields row.id))
    obtain ⟨n, scopes, c', hon, settled⟩ :=
      ih fun r hr => (hsettle.areaOf?_eq _).trans (belongs r (.tail _ hr))
    refine ⟨Listing.misplaced (c.list (.fields row.id)) + n, .fields row.id :: scopes, c', ?_,
      .step (belongs row List.mem_cons_self) (.refl _) settled⟩
    simp only [renumberFields, on_bind, Listing.on_renumber, Scope.kind, hon, on_pure]

theorem ensures_renumberArea :
    (renumberArea area now).Ensures c fun _ c' => Change now area c c' := by
  -- The categories are those that are read after the listing of the area has been settled.
  generalize hc₁ : c.settle now .category (c.list (.categories area)) = c₁
  have belongs : ∀ row ∈ c₁.categoriesOf area, c₁.areaOf? (.fields row.id) = some area := by
    intro row hrow
    obtain ⟨hmem, harea⟩ := mem_categoriesOf.mp hrow
    rw [areaOf?, category?_eq_some_iff.mpr ⟨hmem, rfl⟩, Option.map_some, harea]
  obtain ⟨n, scopes, c', hon, settled⟩ := on_renumberFields now belongs
  simp only [Ensures, renumberArea, on_bind, Listing.on_renumber, Scope.kind, hc₁, on_query, hon,
    on_pure]
  have belongs' : c.areaOf? (.categories area) = some area := rfl
  have hfirst : Settled now area [.categories area] c c₁ := hc₁ ▸ .one now belongs' (.refl _)
  exact .of_settled (hfirst.append settled)

end Statement

end FieldCatalog
