import FieldCatalog.Proofs.Catalog.Dragging
import FieldCatalog.Proofs.Catalog.Editing
import FieldCatalog.Proofs.Catalog.Entries
import FieldCatalog.Proofs.Store.Reading
import FieldCatalog.Proofs.Text.Naming

/-!
# Creations

What the creation of an entry leads to, whatever order it finds. The row is first stored at the
position `-1`, where it may stand anywhere among the others, and then it is settled behind them. It
ends up last under a number that has not been in use, and the others keep their order; if they have
stood at their ranks, none of them is touched.

Categories are created in areas that are well named. Fields have to pass more checks, the first of
which that fails is answered, and nothing changes.

## Main definitions

* `Contents.Appended`: what a new entry at the end of a listing leads to
* `Draft.trimmed`: a draft without the blanks around its short name and its name
* `Contents.TakenIn`: a short name that is in use in an area
* `Contents.CreatedCategory`, `Contents.CreatedField`: what a creation leads to

## Main results

* `Contents.appended_settle`: a new entry is settled behind the others
* `Catalog.createCategory_outcomes`, `Catalog.createField_outcomes`: the outcomes of a creation
-/

namespace FieldCatalog

/-- The draft of a field without the blanks around its short name and its name. -/
def Draft.trimmed (draft : Draft) : Draft :=
  { draft with shortname := Text.trim draft.shortname, name := Text.trim draft.name }

namespace Contents

variable {c c₁ : Contents} {scope : Scope} {kind : Kind} {id : Id} {now : Int}

/-! ## New entries -/

/-- What a new entry at the end of a listing leads to: its number has not been in use, it stands
behind the others, which have kept their order, and whatever there has been is still there. Entries of
other listings are the same, and so are all entries if the listing has stood at its ranks. -/
structure Appended (c : Contents) (scope : Scope) (id : Id) (c' : Contents) : Prop where
  fresh : c.row? scope.kind id = none
  stands : c'.StandsAs scope ((c.list scope).map Member.id ++ [id])
  stays : ∀ kind' id', ¬ (kind' = scope.kind ∧ id' = id) →
    c'.unplaced? kind' id' = c.unplaced? kind' id'
  untouched : Listing.isContiguous (c.list scope) = true →
    ∀ kind' id', ¬ (kind' = scope.kind ∧ id' = id) → c'.row? kind' id' = c.row? kind' id'
  elsewhere : ∀ kind' id', ¬ (kind' = scope.kind ∧ id' = id) → c.scope? kind' id' ≠ some scope →
    c'.row? kind' id' = c.row? kind' id'

/-- Settling a contiguous listing with one entry more behind it does not touch the other entries. -/
theorem row?_settle_append_singleton (now : Int) {m : Member}
    (hperm : (c.list scope ++ [m]).Perm (c₁.list scope))
    (hc : Listing.isContiguous (c.list scope) = true) (hne : ¬ (kind = scope.kind ∧ id = m.id)) :
    (c₁.settle now scope.kind (c.list scope ++ [m])).row? kind id = c₁.row? kind id := by
  by_contra hchanged
  obtain ⟨rfl, n, hn, hmoved⟩ := row?_moveAll_ne_iff.mp hchanged
  obtain rfl := id_of_member? hn
  refine hmoved ?_
  by_cases hlisted : n.id ∈ (c.list scope).map Member.id
  · -- The entry is the one of its number that stands in the listing, at its rank.
    obtain ⟨old, hold, hid⟩ := List.mem_map.mp hlisted
    have hmember := member?_of_mem_list (hperm.mem_iff.mp (List.mem_append_left [m] hold))
    obtain rfl : old = n := Option.some.inj (hmember.symm.trans (hid ▸ hn))
    rw [Listing.rankIn_append_of_mem hlisted]
    exact Listing.rankIn_of_mem hc (c.nodup_ids_list scope) hold
  · refine Listing.rankIn_of_not_mem fun h => ?_
    rw [List.map_append, List.mem_append] at h
    exact hne ⟨rfl, List.mem_singleton.mp (h.resolve_left hlisted)⟩

/-- A new entry is settled behind the others of its listing. -/
theorem appended_settle (now : Int) {m : Member} (hfresh : c.row? scope.kind m.id = none)
    (hothers : ∀ kind' id', ¬ (kind' = scope.kind ∧ id' = m.id) →
      c₁.row? kind' id' = c.row? kind' id')
    (hperm : (c.list scope ++ [m]).Perm (c₁.list scope)) :
    c.Appended scope m.id (c₁.settle now scope.kind (c.list scope ++ [m])) where
  fresh := hfresh
  stands := by
    have hstands := standsAs_settle now hperm
    rwa [List.map_append] at hstands
  stays kind' id' hne := by rw [unplaced?_settle, unplaced?, unplaced?, hothers kind' id' hne]
  untouched hc kind' id' hne :=
    (row?_settle_append_singleton now hperm hc hne).trans (hothers kind' id' hne)
  elsewhere kind' id' hne hscope := by
    have hsame := hothers kind' id' hne
    rw [row?_settle_of_scope?_ne now hperm (scope?_congr hsame ▸ hscope), hsame]

/-! ## New categories -/

theorem mem_categoryNames {area : Area} {name : String} :
    name ∈ c.categoryNames area ↔ ∃ row ∈ c.categories, row.area = area ∧ row.name = name := by
  simp [categoryNames, Table.mem_def, and_assoc]

theorem appended_withCategory (now : Int) {row : Category} (hid : row.id = c.categories.nextKey) :
    c.Appended (.categories row.area) row.id ((c.withCategory row).settle now .category
      (c.list (.categories row.area) ++ [row.member])) := by
  refine appended_settle now ?_ (fun kind' id' hne => ?_) (perm_list_withCategory row hid)
  · have hfresh := c.categories.find?_nextKey
    rw [← hid] at hfresh
    exact Option.map_eq_none_iff.mpr hfresh
  · cases kind' with
    | category =>
      exact congrArg (Option.map Sum.inl) (Table.find?_put_of_ne fun he => hne ⟨rfl, he⟩)
    | field => rfl

/-! ## New fields -/

theorem appended_withField (now : Int) {row : Field} (hid : row.id = c.fields.nextKey) :
    c.Appended (.fields row.categoryid) row.id ((c.withField row).settle now .field
      (c.list (.fields row.categoryid) ++ [row.member])) := by
  refine appended_settle now ?_ (fun kind' id' hne => ?_) (perm_list_withField row hid)
  · have hfresh := c.fields.find?_nextKey
    rw [← hid] at hfresh
    exact Option.map_eq_none_iff.mpr hfresh
  · cases kind' with
    | category => rfl
    | field => exact congrArg (Option.map Sum.inr) (Table.find?_put_of_ne fun he => hne ⟨rfl, he⟩)

/-- A short name that a field of some category of an area has. -/
def TakenIn (c : Contents) (area : Area) (shortname : String) : Prop :=
  ∃ field ∈ c.fields, field.shortname = shortname ∧
    c.areaOf? (.fields field.categoryid) = some area

instance (c : Contents) (area : Area) (shortname : String) : Decidable (c.TakenIn area shortname) :=
  inferInstanceAs (Decidable (∃ field ∈ c.fields, _ ∧ _))

/-- The look-up of a short name finds a field just when the name is taken. -/
theorem isSome_fieldByShortname_iff_takenIn {area : Area} {shortname : String} :
    (c.fieldByShortname area shortname).isSome = true ↔ c.TakenIn area shortname := by
  simp only [isSome_fieldByShortname_iff, TakenIn, areaOf?_fields_eq_some_iff]

/-- What the creation of a category leads to: it is stored as it is answered, at the end of its area.
A name that is not blank is kept without the blanks around it; otherwise its name is one that no
category of the area has had. -/
structure CreatedCategory (c : Contents) (now : Int) (area : Area) (name : Option String)
    (row : Category) (c' : Contents) : Prop where
  stored : c'.category? row.id = some row
  appended : c.Appended (.categories area) row.id c'
  shape : row = { id := row.id, name := row.name, description := "", area,
                  sortorder := c.count (.categories area), timecreated := now, timemodified := now }
  named : ∀ given, name = some given → Text.allBlank given = false → row.name = Text.trim given
  free : (∀ given ∈ name, Text.allBlank given = true) →
    ∀ other ∈ c.categories, other.area = area → other.name ≠ row.name

/-- What the creation of a field leads to: it is stored as it is answered, at the end of its
category. -/
structure CreatedField (c : Contents) (now : Int) (categoryid : Id) (draft : Draft)
    (configdata : String) (row : Field) (c' : Contents) : Prop where
  stored : c'.field? row.id = some row
  appended : c.Appended (.fields categoryid) row.id c'
  shape : row = { id := row.id, shortname := draft.shortname, name := draft.name,
                  type := draft.type, description := draft.description, categoryid,
                  sortorder := c.count (.fields categoryid), configdata, timecreated := now,
                  timemodified := now }

end Contents

namespace Statement

open Contents

variable {c : Contents} {now : Int}

theorem on_addCategory_created {area : Area} {name : Option String} :
    ∃ row c', (addCategory area name now).on c = (.ok row, c') ∧
      c.CreatedCategory now area name row c' := by
  have hid : (c.newCategory area name now).id = c.categories.nextKey := rfl
  refine ⟨_, _, on_addCategory, ?_, appended_withCategory now hid, ?_, ?_, ?_⟩
  · exact category?_settle_withCategory (c.newCategory area name now) hid (Int.negSucc_lt_zero 0) rfl
  · rw [count_eq_length_list]
    rfl
  · rintro given rfl hgiven
    -- The row is opened as far as its name, which must not be worked out.
    dsimp only [newCategory]
    exact Naming.chosen_of_not_blank _ hgiven
  · intro hblank other hother harea he
    have hfree : Naming.chosen (c.categoryNames area) name ∉ c.categoryNames area := by
      rw [Naming.chosen_of_blank _ hblank]
      exact Naming.defaultName_not_mem _
    exact hfree (mem_categoryNames.mpr ⟨other, hother, harea, he⟩)

theorem on_addField_of_none (now : Int) {categoryid : Id} (draft : Draft) (configdata : String)
    (hhome : c.category? categoryid = none) :
    (addField categoryid draft configdata now).on c =
      (.error (.invalidScope ("category " ++ toString categoryid ++ " does not exist")), c) := by
  rw [on_addField, hhome]

theorem on_addField_of_taken (now : Int) {categoryid : Id} {home : Category} {draft : Draft}
    (configdata : String) (hhome : c.category? categoryid = some home)
    (htaken : c.TakenIn home.area draft.shortname) :
    (addField categoryid draft configdata now).on c = (.error (.invalidField
      ("shortname '" ++ draft.shortname ++ "' is already used in " ++ home.area.display)), c) := by
  simp only [on_addField, hhome, if_pos (isSome_fieldByShortname_iff_takenIn.mpr htaken)]

/-- A field is created in an existing category if its short name is free in the area. -/
theorem on_addField_created (now : Int) {categoryid : Id} {home : Category} (draft : Draft)
    (configdata : String) (hhome : c.category? categoryid = some home)
    (hfree : ¬ c.TakenIn home.area draft.shortname) :
    ∃ row c', (addField categoryid draft configdata now).on c = (.ok row, c') ∧
      c.CreatedField now categoryid draft configdata row c' := by
  have hid : (c.newField categoryid draft configdata now).id = c.fields.nextKey := rfl
  have hadd : (addField categoryid draft configdata now).on c = _ := on_addField
  simp only [hhome, if_neg (mt isSome_fieldByShortname_iff_takenIn.mp hfree)] at hadd
  refine ⟨_, _, hadd, ?_, appended_withField now hid, ?_⟩
  · exact field?_settle_withField (c.newField categoryid draft configdata now) hid
      (Int.negSucc_lt_zero 0) rfl
  · rw [count_eq_length_list]
    rfl

end Statement

namespace Area

/-- An area that is not well named is refused. -/
theorem check_eq_error {a : Area} (h : ¬ a.Named) :
    ∃ text, a.check = .error (.invalidScope text) := by
  -- The check asks for the three parts in turn.
  rw [← check_eq_ok_iff] at h
  unfold check at h ⊢
  split
  · exact ⟨_, rfl⟩
  · next hcomponent =>
    rw [if_neg hcomponent] at h
    split
    · exact ⟨_, rfl⟩
    · next harea =>
      rw [if_neg harea] at h
      split
      · exact ⟨_, rfl⟩
      · next hitem => exact absurd (if_neg hitem) h

end Area

namespace Catalog

open Contents Statement

variable {σ : Type} {k : Circumstances σ} {h : Holdings σ}

/-- While nobody else holds the write lock, a category is created at the end of any area that is well
named. -/
theorem createCategory_outcomes (hheld : k.heldElsewhere = false) (area : Area)
    (name : Option String) :
    (¬ area.Named → ∃ text, (createCategory area name).run k h = (.error (.invalidScope text), h)) ∧
    (area.Named → ∃ row c',
      (createCategory area name).run k h = (.ok row, { h with contents := c' }) ∧
        h.contents.CreatedCategory k.now area name row c') := by
  rw [createCategory, Call.run_ofResult_bind]
  refine ⟨fun hnamed => ?_, fun hnamed => ?_⟩
  · obtain ⟨text, harea⟩ := Area.check_eq_error hnamed
    exact ⟨text, by rw [harea]⟩
  · obtain ⟨row, c', hbody, hcreated⟩ := on_addCategory_created
    rw [Area.check_eq_ok_iff.mpr hnamed]
    exact ⟨row, c', Call.run_mutate_of_ok hheld hbody, hcreated⟩

theorem createCategory_outcomes_disordered :
    let k : Circumstances Unit := ⟨.builtin, 3, false, 6⟩
    let h : Holdings Unit := ⟨.disordered, ()⟩
    let area : Area := ⟨"core", "course", 0⟩
    (∃ text, (createCategory ⟨"core", " ", 0⟩ none).run k h = (.error (.invalidScope text), h)) ∧
      ∃ row c', (createCategory area none).run k h = (.ok row, { h with contents := c' }) ∧
        c'.StandsAs (.categories area) [2, -3, 0, row.id] ∧ row.sortorder = 3 ∧
        row.name ≠ "General" := by
  intro k h area
  obtain ⟨row, c', hrun, hcreated⟩ := (createCategory_outcomes (h := h) (k := k) rfl area none).2
    ⟨by decide, by decide, by decide⟩
  refine ⟨(createCategory_outcomes (h := h) (k := k) rfl ⟨"core", " ", 0⟩ none).1 (by decide), row,
    c', hrun, hcreated.appended.stands, ?_, ?_⟩
  · rw [hcreated.shape]
    rfl
  · have hnone : ∀ given ∈ (none : Option String), Text.allBlank given = true :=
      fun _ hnone => absurd hnone (Option.not_mem_none _)
    exact (hcreated.free hnone _ (.head _) rfl).symm

theorem properName_of_blank (what : String) {name : String} (hname : Text.allBlank name = true) :
    properName what name = .error (.invalidField (what ++ " name is empty")) := by
  rw [properName, Text.trim_eq_empty_iff.mpr hname]
  rfl

theorem properDraft_of_not_shortname {draft : Draft} (hs : ¬ IsShortname (Text.trim draft.shortname)) :
    properDraft draft = .error (.invalidField ("shortname '" ++ Text.trim draft.shortname ++
      "' may only contain lowercase letters, digits and underscores")) := by
  rw [properDraft_eq, if_neg (mt isShortname_iff.mp hs)]

theorem properDraft_of_blank {draft : Draft} (hs : IsShortname (Text.trim draft.shortname))
    (hname : Text.allBlank draft.name = true) :
    properDraft draft = .error (.invalidField "field name is empty") := by
  rw [properDraft_eq, if_pos (isShortname_iff.mpr hs), properName_of_blank "field" hname]
  rfl

theorem properDraft_eq_trimmed {draft : Draft} (hs : IsShortname (Text.trim draft.shortname))
    (hname : Text.allBlank draft.name = false) : properDraft draft = .ok draft.trimmed := by
  rw [properDraft_eq, if_pos (isShortname_iff.mpr hs), properName_of_not_blank "field" hname]
  rfl

theorem run_prepare {tag : String} {configdata : Option Json} {result : Except Failure String}
    (hprepare : ∀ outlook state, k.registry.prepare tag configdata outlook state = (result, state)) :
    (prepare tag configdata).run k h = (result, h) := by
  simp only [Call.run, prepare, Transaction.ofCheck, hprepare]

theorem run_createField_of_error {categoryid : Id} {draft : Draft} {e : Failure}
    (hdraft : properDraft draft = .error e) :
    (createField categoryid draft).run k h = (.error e, h) := by
  rw [createField, Call.run_ofResult_bind, hdraft]

/-- A field is created once its draft is proper and its configuration prepared. -/
theorem run_createField_of_ok {categoryid : Id} {draft : Draft} {result : Except Failure String}
    (hdraft : properDraft draft = .ok draft.trimmed)
    (hprepare : ∀ outlook state,
      k.registry.prepare draft.type draft.configdata outlook state = (result, state)) :
    (createField categoryid draft).run k h = match result with
      | .ok configdata => (Call.mutate (addField categoryid draft.trimmed configdata)).run k h
      | .error e => (.error e, h) := by
  rw [createField, Call.run_ofResult_bind, hdraft]
  show (prepare draft.type draft.configdata >>= _).run k h = _
  rw [Call.run_bind, run_prepare hprepare]
  cases result <;> rfl

/-- While nobody else holds the write lock, a draft is checked in this order: its short name, its
name, its type, its configuration, its category, and whether its short name is free in the area. The
first check that fails is answered; otherwise the field is created at the end of its category. -/
theorem createField_outcomes (hheld : k.heldElsewhere = false) (hbuiltin : k.registry = .builtin)
    (categoryid : Id) (draft : Draft) :
    let shortname := Text.trim draft.shortname
    let outcome := (createField categoryid draft).run k h
    (¬ IsShortname shortname → outcome = (.error (.invalidField ("shortname '" ++ shortname ++
      "' may only contain lowercase letters, digits and underscores")), h)) ∧
    (IsShortname shortname →
      (Text.allBlank draft.name = true →
        outcome = (.error (.invalidField "field name is empty"), h)) ∧
      (Text.allBlank draft.name = false →
        (draft.type ∉ k.registry.tags → outcome = (.error (.unknownFieldType draft.type), h)) ∧
        (draft.type ∈ k.registry.tags →
          (¬ k.registry.Accepts draft.type draft.configdata →
            ∃ message, outcome = (.error (FieldType.invalid draft.type message), h)) ∧
          (k.registry.Accepts draft.type draft.configdata →
            (h.contents.category? categoryid = none → outcome = (.error (.invalidScope
              ("category " ++ toString categoryid ++ " does not exist")), h)) ∧
            ∀ home, h.contents.category? categoryid = some home →
              (h.contents.TakenIn home.area shortname → outcome = (.error (.invalidField
                ("shortname '" ++ shortname ++ "' is already used in " ++ home.area.display)), h)) ∧
              (¬ h.contents.TakenIn home.area shortname → ∃ row c',
                outcome = (.ok row, { h with contents := c' }) ∧
                  h.contents.CreatedField k.now categoryid draft.trimmed
                    (draft.configdata.getD (.object [])).render row c'))))) := by
  intro shortname outcome
  refine ⟨fun hs => run_createField_of_error (properDraft_of_not_shortname hs),
    fun hs => ⟨fun hname => run_createField_of_error (properDraft_of_blank hs hname),
      fun hname => ?_⟩⟩
  have hdraft := properDraft_eq_trimmed hs hname
  refine ⟨fun htag => ?_, fun htag => ⟨fun hrejects => ?_, fun haccepts => ?_⟩⟩
  · exact run_createField_of_ok hdraft (Registry.prepare_of_not_mem_tags htag)
  · rw [hbuiltin] at htag hrejects
    obtain ⟨message, hprepare⟩ := Registry.prepare_builtin_of_not_accepts htag hrejects
    exact ⟨message, run_createField_of_ok hdraft (hbuiltin ▸ hprepare)⟩
  · -- The last two checks look at the contents, and so they are made in the transaction.
    have hrun : outcome = _ := run_createField_of_ok hdraft haccepts.prepare
    refine ⟨fun hhome => ?_, fun home hhome => ⟨fun htaken => ?_, fun hfree => ?_⟩⟩
    · exact hrun.trans (Call.run_mutate_of_error hheld (on_addField_of_none k.now _ _ hhome))
    · exact hrun.trans (Call.run_mutate_of_error hheld (on_addField_of_taken k.now _ hhome htaken))
    · obtain ⟨row, c', hbody, hcreated⟩ := on_addField_created k.now draft.trimmed
        (draft.configdata.getD (.object [])).render hhome hfree
      exact ⟨row, c', hrun.trans (Call.run_mutate_of_ok hheld hbody), hcreated⟩

theorem createField_outcomes_disordered :
    let k : Circumstances Unit := ⟨.builtin, 3, false, 6⟩
    let h : Holdings Unit := ⟨.disordered, ()⟩
    let draft : Draft := ⟨"room", " Room ", "text", "", none⟩
    (createField (-3) { draft with name := " " }).run k h =
        (.error (.invalidField "field name is empty"), h) ∧
      (createField (-3) { draft with type := "room" }).run k h =
        (.error (.unknownFieldType "room"), h) ∧
      (∃ text, (createField 1 draft).run k h = (.error (.invalidScope text), h)) ∧
      (∃ text, (createField 0 { draft with shortname := "level" }).run k h =
        (.error (.invalidField text), h)) ∧
      ∃ row c', (createField (-3) draft).run k h = (.ok row, { h with contents := c' }) ∧
        c'.StandsAs (.fields (-3)) [1, 2, row.id] ∧ row.name = "Room" := by
  intro k h draft
  have haccepts : k.registry.Accepts "text" none :=
    ⟨.ofRule "text" Rule.text, [], rfl, rfl, fun _ _ => rfl⟩
  have hroom : IsShortname (Text.trim "room") := by decide
  have hlevel : IsShortname (Text.trim "level") := by decide
  have hname : Text.allBlank " Room " = false := by decide
  have htag : "text" ∈ k.registry.tags := by decide
  refine ⟨?_, ?_, ?_, ?_, ?_⟩
  · exact ((createField_outcomes (k := k) rfl rfl (-3) { draft with name := " " }).2 hroom).1
      (by decide)
  · exact (((createField_outcomes (k := k) rfl rfl (-3) { draft with type := "room" }).2 hroom).2
      hname).1 (by decide)
  · exact ⟨_, (((((createField_outcomes (k := k) rfl rfl 1 draft).2 hroom).2 hname).2 htag).2
      haccepts).1 rfl⟩
  · obtain ⟨-, hchecked⟩ := ((((createField_outcomes (k := k) (h := h) rfl rfl 0
      { draft with shortname := "level" }).2 hlevel).2 hname).2 htag).2 haccepts
    exact ⟨_, (hchecked _ rfl).1 (by decide)⟩
  · obtain ⟨-, hchecked⟩ := ((((createField_outcomes (k := k) (h := h) rfl rfl (-3) draft).2
      hroom).2 hname).2 htag).2 haccepts
    obtain ⟨row, c', hrun, hcreated⟩ := (hchecked _ rfl).2 (by decide)
    refine ⟨row, c', hrun, hcreated.appended.stands, ?_⟩
    rw [hcreated.shape]
    show Text.trim " Room " = "Room"
    decide

end Catalog

end FieldCatalog
