import FieldCatalog.Catalog.Mutation
import FieldCatalog.Proofs.Catalog.Calling

/-!
# What the operations guarantee

An operation checks its arguments, lets the type of a field check a configuration, and then runs one
statement. Whichever of these fails, the contents are as before; and when all of them succeed, the
contents have changed in the area that the operation concerns, or not at all.

## Main definitions

* `Mutation.areaIn`: the area that an operation concerns

## Main results

* `Catalog.ensures_createCategory` and its siblings: one postcondition for each operation
* `Catalog.amend_spec`: the transaction that amends a field
* `Mutation.ensures`: every operation changes the contents in the area it concerns, or not at all
-/

namespace FieldCatalog

/-- An area that is refused deserves it. -/
theorem Area.refuses_check (a : Area) : Refuses a.check := by
  unfold check
  split
  · exact .error rfl
  · split
    · exact .error rfl
    · split
      · exact .error rfl
      · exact .ok ()

namespace Catalog

open Contents Statement

variable {σ : Type} {k : Circumstances σ} {h : Holdings σ} {id : Id}

theorem refuses_properName (what name : String) : Refuses (properName what name) := by
  unfold properName
  dsimp only
  split
  · exact .error rfl
  · exact .ok _

/-- A proper name is what trimming leaves of the given one. -/
theorem isTrimmed_of_properName {what name trimmed : String}
    (hname : properName what name = .ok trimmed) :
    trimmed = Text.trim name ∧ Text.IsTrimmed trimmed := by
  unfold properName at hname
  dsimp only at hname
  split at hname
  · cases hname
  · next hne =>
    cases hname
    exact ⟨rfl, Text.isTrimmed_trim fun he => hne (by rw [he]; rfl)⟩

/-- The short name of a draft is checked before its name is. -/
theorem properDraft_eq (draft : Draft) :
    properDraft draft = if isShortname (Text.trim draft.shortname).toList then
        (properName "field" draft.name).map fun name =>
          { draft with shortname := Text.trim draft.shortname, name }
      else .error (.invalidField ("shortname '" ++ Text.trim draft.shortname ++
        "' may only contain lowercase letters, digits and underscores")) := by
  unfold properDraft
  by_cases hs : isShortname (Text.trim draft.shortname).toList = true
  · rw [if_neg (by rw [hs]; exact Bool.false_ne_true), if_pos hs]
    cases properName "field" draft.name <;> rfl
  · rw [if_pos (by rw [Bool.eq_false_iff.mpr hs]; rfl), if_neg hs]

theorem refuses_properDraft (draft : Draft) : Refuses (properDraft draft) := by
  unfold properDraft
  dsimp only
  split
  · exact .error rfl
  · exact .bind (refuses_properName _ _) fun _ => .ok _

/-- A proper draft has a well-formed short name and a proper name, and is otherwise as it was given. -/
theorem exists_of_properDraft {draft proper : Draft} (hdraft : properDraft draft = .ok proper) :
    isShortname (Text.trim draft.shortname).toList = true ∧
      ∃ name, properName "field" draft.name = .ok name ∧
        proper = { draft with shortname := Text.trim draft.shortname, name } := by
  rw [properDraft_eq] at hdraft
  split at hdraft
  · next hshort =>
    refine ⟨hshort, ?_⟩
    cases hname : properName "field" draft.name with
    | error e =>
      rw [hname] at hdraft
      cases hdraft
    | ok name =>
      rw [hname] at hdraft
      cases hdraft
      exact ⟨name, rfl, rfl⟩
  · cases hdraft

theorem proper_of_properDraft {draft proper : Draft} (hdraft : properDraft draft = .ok proper) :
    isShortname proper.shortname.toList = true ∧ Text.IsTrimmed proper.name := by
  obtain ⟨hshort, name, hname, rfl⟩ := exists_of_properDraft hdraft
  exact ⟨hshort, (isTrimmed_of_properName hname).2⟩

theorem ensures_createCategory {area : Area} {name : Option String} :
    (createCategory area name).Ensures k h fun category c' =>
      category.area = area ∧ Change k.now area h.contents c' := by
  unfold createCategory
  exact Call.ensures_ofResult_bind area.refuses_check fun _ named =>
    Call.ensures_mutate (ensures_addCategory named)

theorem ensures_renameCategory {name : String} :
    (renameCategory id name).Ensures k h fun category c' =>
      h.contents.entryArea? .category id = some category.area ∧
        Change k.now category.area h.contents c' := by
  unfold renameCategory
  exact Call.ensures_ofResult_bind (refuses_properName _ _) fun _ hname =>
    Call.ensures_mutate (ensures_retitleCategory (isTrimmed_of_properName hname).2)

theorem ensures_deleteCategory :
    (deleteCategory id).Ensures k h fun _ c' => c' = h.contents ∨
      ∃ area, h.contents.entryArea? .category id = some area ∧ Change k.now area h.contents c' :=
  Call.ensures_mutate ensures_removeCategory

theorem ensures_moveCategory {direction : Direction} :
    (moveCategory id direction).Ensures k h fun _ c' => Moved k.now .category id h.contents c' :=
  Call.ensures_mutate ensures_shiftCategory

theorem ensures_dragCategory {before : Option Id} :
    (dragCategory id before).Ensures k h fun _ c' => Moved k.now .category id h.contents c' :=
  Call.ensures_mutate ensures_repositionCategory

/-- Preparing a configuration leaves the contents alone. -/
theorem ofCheck_prepare_apply (registry : Registry σ) (outlook : Outlook) (tag : String)
    (configdata : Option Json) (h : Holdings σ) :
    ∃ result types, Transaction.ofCheck outlook (registry.prepare tag configdata) h =
        (result, { h with types }) ∧ (registry = .builtin → Refuses result) := by
  refine ⟨_, _, rfl, ?_⟩
  rintro rfl
  exact Registry.refuses_prepare_builtin tag configdata outlook h.types

theorem ensures_prepare_bind {β : Type} {tag : String} {configdata : Option Json}
    {next : String → Call σ β} {post : β → Contents → Prop}
    (hnext : ∀ text types, (next text).Ensures k { h with types } post) :
    (prepare tag configdata >>= next).Ensures k h post := by
  obtain ⟨result, types, hrun, hrefuses⟩ := ofCheck_prepare_apply k.registry
    ⟨fun scope => .ok (h.contents.count scope)⟩ tag configdata h
  have hprepare : (prepare tag configdata).run k h = (result, { h with types }) := hrun
  exact Call.ensures_bind types hprepare hrefuses fun text _ => hnext text types

theorem ensures_createField {categoryid : Id} {draft : Draft} :
    (createField categoryid draft).Ensures k h fun field c' =>
      ∃ area, h.contents.areaOf? (.fields categoryid) = some area ∧
        Change k.now area h.contents c' ∧ c'.entryArea? .field field.id = some area := by
  unfold createField
  refine Call.ensures_ofResult_bind (refuses_properDraft draft) fun proper hproper => ?_
  obtain ⟨hshort, hname⟩ := proper_of_properDraft hproper
  exact ensures_prepare_bind fun text types => Call.ensures_mutate (ensures_addField hshort hname)

theorem ensures_deleteField (hc : h.contents.Referential) :
    (deleteField id).Ensures k h fun _ c' => c' = h.contents ∨
      ∃ area, h.contents.entryArea? .field id = some area ∧ Change k.now area h.contents c' :=
  Call.ensures_mutate (ensures_removeField hc)

theorem ensures_moveField {direction : Direction} (hc : h.contents.Referential) :
    (moveField id direction).Ensures k h fun _ c' => Moved k.now .field id h.contents c' :=
  Call.ensures_mutate (ensures_shiftField hc)

theorem ensures_dragField {categoryid before : Option Id} (hc : h.contents.Referential) :
    (dragField id categoryid before).Ensures k h fun _ c' => Moved k.now .field id h.contents c' :=
  Call.ensures_mutate (ensures_repositionField hc)

theorem ensures_reorder {area : Area} :
    (reorder area).Ensures k h fun _ c' => Change k.now area h.contents c' := by
  unfold reorder
  exact Call.ensures_ofResult_bind area.refuses_check fun _ _ =>
    Call.ensures_mutate ensures_renumberArea

/-! ## Amendments -/

/-- The new configuration of a field is worked out without touching the contents. -/
theorem amendedConfigdata_apply (registry : Registry σ) (field : Field) (configdata : Option Json)
    (h : Holdings σ) :
    ∃ result types, amendedConfigdata registry field configdata h = (result, { h with types }) ∧
      (registry = .builtin → Refuses result) := by
  cases configdata with
  | none => exact ⟨.ok field.configdata, h.types, rfl, fun _ => .ok _⟩
  | some configdata => exact ofCheck_prepare_apply registry _ field.type (some configdata) h

/-- An amended field lies where it did, in a category that exists. -/
theorem amend_spec (registry : Registry σ) (id : Id) {amendment : Amendment} (now : Int)
    (hc : h.contents.Referential)
    (hname : ∀ name, amendment.name = some name → Text.IsTrimmed (Text.trim name)) :
    match amend registry id amendment now h with
    | (.ok _, h') => ∃ area, h.contents.entryArea? .field id = some area ∧
        Change now area h.contents h'.contents
    | (.error e, _) => registry = .builtin → e.isRefusal = true := by
  -- The field is read, its configuration is worked out, and the field is stored again.
  simp only [amend, Transaction.bind_apply, Transaction.ofStatement, on_field]
  cases hf : h.contents.field? id with
  | none => exact fun _ => rfl
  | some old =>
    obtain ⟨area, belongs⟩ := hc.areaOf?_eq_some hf
    have hhome := hc.hasCategory hf
    obtain ⟨result, types, hconfig, hrefuses⟩ :=
      amendedConfigdata_apply registry old amendment.configdata h
    dsimp only
    rw [hconfig]
    cases result with
    | error e => exact fun hbuiltin => hrefuses hbuiltin e rfl
    | ok configdata =>
      have htrimmed : (amendment.name.map Text.trim).getD old.name = old.name ∨
          Text.IsTrimmed ((amendment.name.map Text.trim).getD old.name) := by
        cases ha : amendment.name with
        | none => exact .inl rfl
        | some name => exact .inr (hname name ha)
      -- What the amendment leaves open stays as it was; from here on it does not matter which.
      generalize (amendment.name.map Text.trim).getD old.name = name at htrimmed ⊢
      generalize amendment.description.getD old.description = description
      have hput := on_putField_of_hasCategory
        { old with name, description, configdata, timemodified := now } hhome
      obtain ⟨-, rfl⟩ := field?_eq_some_iff.mp hf
      simp only [hput]
      exact ⟨area, (entryArea?_field hf).trans belongs,
        .of_edit (.amend description configdata hf belongs htrimmed)⟩

theorem ensures_updateField {amendment : Amendment} (hc : h.contents.Referential) :
    (updateField id amendment).Ensures k h fun _ c' =>
      ∃ area, h.contents.entryArea? .field id = some area ∧ Change k.now area h.contents c' := by
  have hmutate : (∀ name, amendment.name = some name → Text.IsTrimmed (Text.trim name)) →
      (Call.mutateWith fun c => amend c.registry id amendment c.now).Ensures k h fun _ c' =>
        ∃ area, h.contents.entryArea? .field id = some area ∧
          Change k.now area h.contents c' := by
    intro hname
    refine Call.ensures_mutateWith (fun types a h' hrun => ?_) fun types e h' hrun => ?_
    all_goals
      have hspec := amend_spec (h := { h with types }) k.registry id k.now hc hname
      rw [hrun] at hspec
      exact hspec
  -- A new name is checked before the transaction, which trims it once more.
  unfold updateField
  cases hname : amendment.name with
  | none => exact hmutate fun name h => by cases hname.symm.trans h
  | some name =>
    refine Call.ensures_ofResult_bind (refuses_properName _ _) fun trimmed htrim => hmutate ?_
    intro name' h
    obtain rfl : name = name' := Option.some.inj (hname.symm.trans h)
    obtain ⟨rfl, htrimmed⟩ := isTrimmed_of_properName htrim
    exact htrimmed

end Catalog

/-! ## All operations -/

/-- The area that an operation concerns: the one it is given, or the area of its subject. -/
def Mutation.areaIn (c : Contents) : Mutation → Option Area
  | .createCategory area _ | .reorder area => some area
  | .createField categoryid _ => c.areaOf? (.fields categoryid)
  | .renameCategory id _ | .deleteCategory id | .moveCategory id _ | .dragCategory id _ =>
    c.entryArea? .category id
  | .updateField id _ | .deleteField id | .moveField id _ | .dragField id _ _
  | .moveFieldToCategory id _ => c.entryArea? .field id

open Catalog Contents in
/-- Every operation changes the contents in the area it concerns, or not at all. -/
theorem Mutation.ensures {σ : Type} (m : Mutation) {k : Circumstances σ} {h : Holdings σ}
    (hc : h.contents.Referential) :
    m.perform.Ensures k h fun _ c' => c' = h.contents ∨
      ∃ area, m.areaIn h.contents = some area ∧ Change k.now area h.contents c' := by
  have moved : ∀ {kind id c'}, Moved k.now kind id h.contents c' → c' = h.contents ∨
      ∃ area, h.contents.entryArea? kind id = some area ∧ Change k.now area h.contents c' := by
    rintro kind id c' ⟨area, harea, hchange, -⟩
    exact .inr ⟨area, harea, hchange⟩
  cases m with
  | createCategory area name =>
    exact ensures_createCategory.map fun _ _ h => .inr ⟨area, rfl, h.2⟩
  | renameCategory id name => exact ensures_renameCategory.map fun _ _ h => .inr ⟨_, h⟩
  | deleteCategory id => exact ensures_deleteCategory.map fun _ _ h => h
  | moveCategory id direction => exact ensures_moveCategory.map fun _ _ h => moved h
  | dragCategory id before => exact ensures_dragCategory.map fun _ _ h => moved h
  | createField categoryid draft =>
    refine ensures_createField.map fun _ _ h => ?_
    obtain ⟨area, harea, hchange, -⟩ := h
    exact .inr ⟨area, harea, hchange⟩
  | updateField id amendment => exact (ensures_updateField hc).map fun _ _ h => .inr h
  | deleteField id => exact (ensures_deleteField hc).map fun _ _ h => h
  | moveField id direction => exact (ensures_moveField hc).map fun _ _ h => moved h
  | dragField id categoryid before => exact (ensures_dragField hc).map fun _ _ h => moved h
  | moveFieldToCategory id categoryid => exact (ensures_dragField hc).map fun _ _ h => moved h
  | reorder area => exact ensures_reorder.map fun _ _ h => .inr ⟨area, rfl, h⟩

end FieldCatalog
