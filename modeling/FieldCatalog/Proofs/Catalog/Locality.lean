import FieldCatalog.Proofs.Catalog.Part
import FieldCatalog.Proofs.Catalog.Stepping
import FieldCatalog.Proofs.FieldType.Preparation

/-!
# Operations on a part

An operation whose subject, targets and destination all belong to one area needs to know nothing of
the others. Run on the part of the contents in that area alone, it gives the same answer, and it
leaves the part of what it would have left of the whole. Creations are not among these operations,
for the number of a new row depends on the whole catalog.

## Main definitions

* `Statement.Local`, `Call.Local`: the same answer from the part, and the same part left
* `Mutation.ActsIn`: all that an operation names exists and belongs to an area

## Main results

* `Statement.local_bind`, `Call.local_mutate`: how locality is composed
* `Mutation.local_perform`: an operation that acts in an area is local to it
-/

namespace FieldCatalog

/-! ## Statements -/

namespace Statement

open Contents

variable {α β : Type} {area : Area} {c : Contents} {kind : Kind} {scope : Scope} {id : Id}
  {now : Int}

/-- A statement that is run on the part of the contents in an area answers the same, and leaves the
part of what it leaves of the whole. -/
def Local (area : Area) (s : Statement α) (c : Contents) : Prop :=
  s.on (c.part area) = ((s.on c).1, (s.on c).2.part area)

theorem local_pure (a : α) : Local area (pure a) c := rfl

theorem local_query {f : Contents → α} (h : f (c.part area) = f c) : Local area (query f) c := by
  rw [Local, on_query, on_query, h]

/-- A local statement may be followed by one that is local to what it leaves. -/
theorem local_bind {s : Statement α} {f : α → Statement β} (hs : s.Local area c)
    (hf : ∀ a c', s.on c = (.ok a, c') → (f a).Local area c') : Local area (s >>= f) c := by
  simp only [Local, on_bind] at hs ⊢
  rw [hs]
  cases hrun : s.on c with
  | mk result c' =>
    cases result with
    | error e => rfl
    | ok a => exact hf a c' hrun

theorem local_renumber (now : Int) (belongs : c.areaOf? scope = some area) :
    (Listing.renumber now scope).Local area c := by
  simp only [Local, Listing.on_renumber, list_part belongs, part_settle]

/-- The fields of categories of the area are renumbered within the part. -/
theorem local_renumberFields (now : Int) {categories : List Category}
    (belongs : ∀ row ∈ categories, c.areaOf? (.fields row.id) = some area) :
    (renumberFields now categories).Local area c := by
  -- Induction on the categories, for all contents: settling the fields of the first one leaves
  -- every category in its area.
  induction categories generalizing c with
  | nil => exact local_pure 0
  | cons row rest ih =>
    refine local_bind (local_renumber now (belongs row List.mem_cons_self)) fun moved c' hrun => ?_
    rw [Listing.on_renumber] at hrun
    obtain ⟨-, rfl⟩ := Prod.mk.inj hrun
    have hareas := (rearranged_settle c now .field (c.list (.fields row.id))).areaOf?_eq
    refine local_bind (ih fun r hr => ?_) fun _ _ _ => local_pure _
    exact (hareas _).trans (belongs r (.tail _ hr))

theorem local_renumberArea (area : Area) (now : Int) (c : Contents) :
    (renumberArea area now).Local area c := by
  refine local_bind (local_renumber now rfl) fun moved c' _ => ?_
  refine local_bind (local_query categoriesOf_part) fun categories c'' hrun => ?_
  rw [on_query] at hrun
  obtain ⟨hcategories, rfl⟩ := Prod.mk.inj hrun
  obtain rfl := Except.ok.inj hcategories
  refine local_bind (local_renumberFields now fun row hrow => ?_) fun _ _ _ => local_pure _
  obtain ⟨hmem, harea⟩ := mem_categoriesOf.mp hrow
  exact areaOf?_fields_eq_some_iff.mpr ⟨row, hmem, rfl, harea⟩

/-! ## Entries of either kind -/

theorem scope?_of_entryArea? (h : c.entryArea? kind id = some area) :
    ∃ scope, c.scope? kind id = some scope ∧ (c.part area).scope? kind id = some scope ∧
      c.areaOf? scope = some area := by
  cases kind with
  | category =>
    obtain ⟨row, hrow, harea⟩ := category?_of_areaOf? h
    have hrow' := (category?_part h).trans hrow
    exact ⟨row.scope, congrArg (Option.map Category.scope) hrow,
      congrArg (Option.map Category.scope) hrow', congrArg some harea⟩
  | field =>
    obtain ⟨row, hrow, harea⟩ := field?_of_entryArea? h
    have hrow' := (field?_part h).trans hrow
    exact ⟨row.scope, congrArg (Option.map Field.scope) hrow,
      congrArg (Option.map Field.scope) hrow', harea⟩

theorem local_shiftEntry (direction : Direction) (now : Int)
    (h : c.entryArea? kind id = some area) : (shiftEntry kind id direction now).Local area c := by
  obtain ⟨scope, hscope, hscope', belongs⟩ := scope?_of_entryArea? h
  rw [Local, on_shiftEntry now hscope, on_shiftEntry now hscope', list_part belongs]
  cases Listing.exchanged (Listing.ranked (c.list scope)) id direction with
  | none => simp only [part_settle]
  | some order => simp only [part_settle]

/-! ## Categories -/

theorem local_retitleCategory (name : String) (now : Int) (hp : c.Positive)
    (h : c.entryArea? .category id = some area) :
    (retitleCategory id name now).Local area c := by
  obtain ⟨old, hold, harea⟩ := category?_of_areaOf? h
  have hold' := (category?_part h).trans hold
  obtain ⟨-, rfl⟩ := category?_eq_some_iff.mp hold
  have hrow := hp.storedCategory_eq { old with name, timemodified := now } hold rfl
  have hrow' := (hp.part area).storedCategory_eq { old with name, timemodified := now } hold' rfl
  have hpart : (c.withCategory { old with name, timemodified := now }).part area =
      (c.part area).withCategory { old with name, timemodified := now } :=
    part_withCategory hold rfl harea
  simp only [Local, on_retitleCategory, hold, hold', hrow, hrow', hpart]

theorem local_removeCategory (now : Int) (h : c.entryArea? .category id = some area) :
    (removeCategory id now).Local area c := by
  obtain ⟨old, hold, rfl⟩ := category?_of_areaOf? h
  have hold' := (category?_part h).trans hold
  have hlist : ((c.withoutCategory id).part old.area).list (.categories old.area) =
      (c.withoutCategory id).list (.categories old.area) := list_part rfl
  simp only [Local, on_removeCategory, hold, hold', part_settle, ← part_withoutCategory, hlist]

theorem local_repositionCategory {before : Option Id} (now : Int)
    (h : c.entryArea? .category id = some area)
    (hb : ∀ b, before = some b → c.entryArea? .category b = some area) :
    (repositionCategory id before now).Local area c := by
  obtain ⟨old, hold, rfl⟩ := category?_of_areaOf? h
  have hold' := (category?_part h).trans hold
  have hadmits : c.admits old before = .ok () := admits_eq_ok_iff.mpr fun b he =>
    category?_of_areaOf? (hb b he)
  have hadmits' : (c.part old.area).admits old before = .ok () := admits_eq_ok_iff.mpr fun b he =>
    category?_of_areaOf? (areaOf?_part.mpr (hb b he))
  -- Both drags are about one listing, and so they aim at one order.
  obtain ⟨order, ho, hon⟩ := on_repositionCategory_of_ok now hold hadmits
  obtain ⟨order', ho', hon'⟩ := on_repositionCategory_of_ok now hold' hadmits'
  rw [list_part rfl, ho] at ho'
  obtain rfl := Option.some.inj ho'
  rw [Local, hon, hon', part_settle]

/-! ## Fields -/

theorem local_removeField (now : Int) (h : c.entryArea? .field id = some area) :
    (removeField id now).Local area c := by
  obtain ⟨old, hold, belongs⟩ := field?_of_entryArea? h
  have hold' := (field?_part h).trans hold
  have hlist : ((c.withoutField id).part area).list (.fields old.categoryid) =
      (c.withoutField id).list (.fields old.categoryid) := list_part belongs
  simp only [Local, on_removeField, hold, hold', part_settle, ← part_withoutField, hlist]

variable {field : Field} {home : Id} {categoryid before : Option Id}

theorem reachable_part (belongs : c.areaOf? (.fields field.categoryid) = some area)
    (hhome : c.areaOf? (.fields home) = some area) :
    (c.part area).reachable field home = c.reachable field home := by
  simp only [reachable, category?_part belongs, category?_part hhome]

theorem destination_part (belongs : c.areaOf? (.fields field.categoryid) = some area)
    (hcategory : ∀ home, categoryid = some home → c.entryArea? .category home = some area)
    (hb : ∀ b, before = some b → c.entryArea? .field b = some area) :
    (c.part area).destination field categoryid before = c.destination field categoryid before := by
  cases before with
  | none =>
    refine reachable_part belongs ?_
    cases categoryid with
    | none => exact belongs
    | some home => exact hcategory home rfl
  | some b =>
    obtain ⟨row, hrow, hhome⟩ := field?_of_entryArea? (hb b rfl)
    simp only [destination, (field?_part (hb b rfl)).trans hrow, hrow, reachable_part belongs hhome]

/-- A field that may go to a category is carried there within the part. -/
theorem local_carryField (now : Int) (hfield : c.field? field.id = some field)
    (belongs : c.areaOf? (.fields field.categoryid) = some area)
    (hr : c.reachable field home = .ok home) (hb : ∀ b, Listing.target before = some b →
      b ∈ (c.list (.fields home)).map Member.id) :
    (carryField field.id field.scope (.fields home) before now).Local area c := by
  have hentry := (entryArea?_field hfield).trans belongs
  have hhome := areaOf?_of_reachable hr belongs
  have hfield' := (field?_part hentry).trans hfield
  have hb' := hb
  rw [← list_part hhome] at hb'
  by_cases hne : home = field.categoryid
  · subst hne
    obtain ⟨order, ho, hon⟩ := on_carryField_self now hfield hb
    obtain ⟨order', ho', hon'⟩ := on_carryField_self now hfield' hb'
    rw [list_part belongs, ho] at ho'
    obtain rfl := Option.some.inj ho'
    rw [Field.scope, Local, hon, hon', part_settle]
  · have hr' := (reachable_part belongs hhome).trans hr
    obtain ⟨order, ho, hon⟩ := on_carryField_of_ne now hfield hr hne hb
    obtain ⟨order', ho', hon'⟩ := on_carryField_of_ne now hfield' hr' hne hb'
    -- The category that the field goes to is settled first, and then the one that it has left.
    have hlist : ((c.rehome field.id home now).part area).list (.fields home) =
        (c.rehome field.id home now).list (.fields home) := list_part hhome
    rw [← part_rehome now hentry hhome, hlist, ho] at ho'
    obtain rfl := Option.some.inj ho'
    have hleft : (((c.rehome field.id home now).settle now .field order).part area).list
          (.fields field.categoryid) =
        ((c.rehome field.id home now).settle now .field order).list (.fields field.categoryid) :=
      list_part (((rearranged_settle _ now .field order).areaOf?_eq _).trans belongs)
    rw [Field.scope, Local, hon, hon', ← part_rehome now hentry hhome, ← part_settle, hleft,
      ← part_settle]

theorem local_repositionField (now : Int) (h : c.entryArea? .field id = some area)
    (hcategory : ∀ home, categoryid = some home → c.entryArea? .category home = some area)
    (hb : ∀ b, before = some b → c.entryArea? .field b = some area) :
    (repositionField id categoryid before now).Local area c := by
  obtain ⟨field, hfield, belongs⟩ := field?_of_entryArea? h
  have hfield' := (field?_part h).trans hfield
  have hpart := destination_part belongs hcategory hb
  cases hd : c.destination field categoryid before with
  | error e =>
    rw [Local, on_repositionField_of_error hfield hd,
      on_repositionField_of_error hfield' (hpart.trans hd)]
  | ok home =>
    obtain ⟨hon, hr, hlisted⟩ := on_repositionField_of_ok now hfield hd
    obtain ⟨hon', -, -⟩ := on_repositionField_of_ok now hfield' (hpart.trans hd)
    obtain ⟨-, rfl⟩ := field?_eq_some_iff.mp hfield
    rw [Local, hon, hon']
    refine local_carryField now hfield belongs hr fun b hb => ?_
    obtain ⟨rfl, -⟩ := Option.filter_eq_some_iff.mp hb
    exact hlisted b rfl

/-- Changes the parts of a field that are given, where the new configuration is decided by looking
at the field alone. -/
def amendBy (verdict : Field → Except Failure String) (id : Id) (amendment : Amendment)
    (now : Int) : Statement Field := do
  let old ← Statement.field id
  let configdata ← ofResult (verdict old)
  let field : Field :=
    { old with
      name := (amendment.name.map Text.trim).getD old.name
      description := amendment.description.getD old.description
      configdata := configdata
      timemodified := now }
  let _ ← putField field
  return field

theorem local_amendBy (verdict : Field → Except Failure String) (amendment : Amendment) (now : Int)
    (hp : c.Positive) (h : c.entryArea? .field id = some area) :
    (amendBy verdict id amendment now).Local area c := by
  obtain ⟨old, hold, belongs⟩ := field?_of_entryArea? h
  have hold' := (field?_part h).trans hold
  simp only [Local, amendBy, on_bind, on_field, hold, hold', on_ofResult]
  cases verdict old with
  | error e => rfl
  | ok configdata =>
    -- The row is stored under its own number, in a category that the part has as well.
    obtain ⟨-, rfl⟩ := field?_eq_some_iff.mp hold
    generalize (amendment.name.map Text.trim).getD old.name = name
    generalize amendment.description.getD old.description = description
    have hrow := hp.storedField_eq
      { old with name, description, configdata, timemodified := now } hold rfl
    have hrow' := (hp.part area).storedField_eq
      { old with name, description, configdata, timemodified := now } hold' rfl
    have hhas {d : Contents} (hd : d.areaOf? (.fields old.categoryid) = some area) :
        d.hasCategory old.categoryid = true := by
      obtain ⟨home, hhome, -⟩ := category?_of_areaOf? hd
      rw [hasCategory, hhome]
      rfl
    have hpart :
        (c.withField { old with name, description, configdata, timemodified := now }).part area =
          (c.part area).withField { old with name, description, configdata, timemodified := now } :=
      part_withField belongs
    simp only [on_putField, hrow, hrow', hhas belongs, hhas (areaOf?_part.mpr belongs), if_true,
      on_pure]
    exact congrArg (Prod.mk _) hpart.symm

end Statement

/-! ## Amendments by the built-in types -/

namespace Catalog

variable {σ : Type}

/-- To amend a field by the built-in types is to run a statement. -/
theorem amend_builtin (id : Id) (amendment : Amendment) :
    ∃ verdict, ∀ now, (amend .builtin id amendment now : Transaction σ Field) =
      .ofStatement (Statement.amendBy verdict id amendment now) := by
  have hconfig (old : Field) : ∃ result,
      (amendedConfigdata .builtin old amendment.configdata : Transaction σ String) =
        .ofStatement (Statement.ofResult result) := by
    cases amendment.configdata with
    | none => exact ⟨.ok old.configdata, rfl⟩
    | some configdata =>
      obtain ⟨result, hresult⟩ := Registry.prepare_builtin_apply (σ := σ) old.type (some configdata)
        ⟨fun _ => .error .storeBusy⟩
      refine ⟨result, funext fun h => ?_⟩
      simp only [amendedConfigdata, Transaction.ofCheck, hresult]
      rfl
  choose verdict hverdict using hconfig
  refine ⟨verdict, fun now => ?_⟩
  have hpure (a : Field) : (pure a : Transaction σ Field) = .ofStatement (pure a) := rfl
  simp only [amend, hverdict, hpure, Transaction.ofStatement_bind, Statement.amendBy]

end Catalog

/-! ## Calls -/

namespace Holdings

variable {σ : Type}

/-- The part of the holdings in an area. What the types remember belongs to every part. -/
def part (h : Holdings σ) (area : Area) : Holdings σ :=
  { h with contents := h.contents.part area }

@[ext]
theorem ext {h h' : Holdings σ} (contents : h.contents = h'.contents) (types : h.types = h'.types) :
    h = h' := by
  cases h
  cases h'
  congr

end Holdings

namespace Call

variable {σ α β : Type} {area : Area} {k : Circumstances σ} {h : Holdings σ}

/-- A call that is run on the part of the holdings in an area answers the same, and leaves the part
of what it leaves of the whole. What the types remember stays as it is. -/
structure Local (area : Area) (call : Call σ α) (k : Circumstances σ) (h : Holdings σ) : Prop where
  part : call.run k (h.part area) = ((call.run k h).1, (call.run k h).2.part area)
  types : (call.run k h).2.types = h.types

/-- A local statement makes a local call: a failure leaves no trace in either. -/
theorem local_mutate {body : Int → Statement α} (hbody : (body k.now).Local area h.contents) :
    (mutate body).Local area k h := by
  cases hrun : (body k.now).on h.contents with
  | mk result c' =>
    have hpart : (body k.now).on (h.contents.part area) = (result, c'.part area) := by
      rw [hbody, hrun]
    constructor
    · simp only [run_mutate, Holdings.part, hrun, hpart]
      cases k.heldElsewhere <;> cases result <;> rfl
    · simp only [run_mutate, hrun]
      cases k.heldElsewhere <;> cases result <;> rfl

/-- A check of the arguments does not look at the holdings. -/
theorem local_ofResult_bind {result : Except Failure α} {next : α → Call σ β}
    (hnext : ∀ a, (next a).Local area k h) : (ofResult result >>= next).Local area k h := by
  cases result with
  | error e => exact ⟨rfl, rfl⟩
  | ok a => exact ⟨(hnext a).part, (hnext a).types⟩

/-- The answer of a call, put into another form. -/
theorem Local.map {call : Call σ α} (hcall : call.Local area k h) (f : α → β) :
    Local area (do let a ← call; return f a) k h := by
  constructor
  · rw [run_bind, run_bind, hcall.part]
    rcases call.run k h with ⟨_ | _, _⟩ <;> rfl
  · have htypes := hcall.types
    rw [run_bind]
    rcases hrun : call.run k h with ⟨_ | _, _⟩ <;> rw [hrun] at htypes <;> exact htypes

end Call

/-! ## Operations -/

namespace Catalog

variable {σ : Type} {area : Area} {k : Circumstances σ} {h : Holdings σ} {id : Id}

theorem local_renameCategory (name : String) (hp : h.contents.Positive)
    (hentry : h.contents.entryArea? .category id = some area) :
    (renameCategory id name).Local area k h :=
  Call.local_ofResult_bind fun name =>
    Call.local_mutate (Statement.local_retitleCategory name k.now hp hentry)

theorem local_deleteCategory (hentry : h.contents.entryArea? .category id = some area) :
    (deleteCategory id).Local area k h :=
  Call.local_mutate (Statement.local_removeCategory k.now hentry)

theorem local_moveEntry {kind : Kind} (direction : Direction)
    (hentry : h.contents.entryArea? kind id = some area) :
    (moveEntry kind id direction).Local area k h := by
  rw [moveEntry_eq_mutate]
  exact Call.local_mutate (Statement.local_shiftEntry direction k.now hentry)

theorem local_dragCategory {before : Option Id}
    (hentry : h.contents.entryArea? .category id = some area)
    (hb : ∀ b ∈ Listing.target before, h.contents.entryArea? .category b = some area) :
    (dragCategory id before).Local area k h :=
  Call.local_mutate (Statement.local_repositionCategory k.now hentry hb)

theorem local_updateField (amendment : Amendment) (hbuiltin : k.registry = .builtin)
    (hp : h.contents.Positive) (hentry : h.contents.entryArea? .field id = some area) :
    (updateField id amendment).Local area k h := by
  obtain ⟨verdict, hverdict⟩ := amend_builtin (σ := σ) id amendment
  have hrun (h : Holdings σ) :
      (Call.mutateWith fun c => amend c.registry id amendment c.now).run k h =
        (Call.mutate (Statement.amendBy verdict id amendment)).run k h := by
    simp only [Call.run, Call.mutate, Call.mutateWith, hbuiltin, hverdict]
  have hlocal : (Call.mutate (Statement.amendBy verdict id amendment)).Local area k h :=
    Call.local_mutate (Statement.local_amendBy verdict amendment k.now hp hentry)
  have hmutate : (Call.mutateWith fun c => amend c.registry id amendment c.now).Local area k h := by
    constructor
    · rw [hrun, hrun]
      exact hlocal.part
    · rw [hrun]
      exact hlocal.types
  unfold updateField
  cases amendment.name with
  | none => exact hmutate
  | some name => exact Call.local_ofResult_bind fun _ => hmutate

theorem local_deleteField (hentry : h.contents.entryArea? .field id = some area) :
    (deleteField id).Local area k h :=
  Call.local_mutate (Statement.local_removeField k.now hentry)

theorem local_dragField {categoryid before : Option Id}
    (hentry : h.contents.entryArea? .field id = some area)
    (hcategory : ∀ home ∈ categoryid, h.contents.entryArea? .category home = some area)
    (hb : ∀ b ∈ Listing.target before, h.contents.entryArea? .field b = some area) :
    (dragField id categoryid before).Local area k h :=
  Call.local_mutate (Statement.local_repositionField k.now hentry hcategory hb)

theorem local_reorder (area : Area) (k : Circumstances σ) (h : Holdings σ) :
    (reorder area).Local area k h :=
  Call.local_ofResult_bind fun _ =>
    Call.local_mutate (Statement.local_renumberArea area k.now h.contents)

end Catalog

namespace Mutation

open Catalog

/-- All that an operation names exists and belongs to an area, and it does not create a row. -/
def ActsIn (area : Area) (c : Contents) : Mutation → Prop
  | .createCategory _ _ | .createField _ _ => False
  | .renameCategory id _ | .deleteCategory id | .moveCategory id _ =>
    c.entryArea? .category id = some area
  | .dragCategory id before => c.entryArea? .category id = some area ∧
    ∀ b ∈ Listing.target before, c.entryArea? .category b = some area
  | .updateField id _ | .deleteField id | .moveField id _ => c.entryArea? .field id = some area
  | .dragField id categoryid before => c.entryArea? .field id = some area ∧
    (∀ home ∈ categoryid, c.entryArea? .category home = some area) ∧
    ∀ b ∈ Listing.target before, c.entryArea? .field b = some area
  | .moveFieldToCategory id categoryid => c.entryArea? .field id = some area ∧
    c.entryArea? .category categoryid = some area
  | .reorder named => named = area

variable {σ : Type} {area : Area} {k : Circumstances σ} {h : Holdings σ} {m : Mutation}

/-- Whether an operation acts in an area can be told from the part. -/
theorem actsIn_part {c : Contents} : m.ActsIn area (c.part area) ↔ m.ActsIn area c := by
  cases m <;> simp only [ActsIn, Contents.entryArea?_part]

/-- An operation that acts in an area concerns it. -/
theorem ActsIn.areaIn_eq {c : Contents} (hm : m.ActsIn area c) : m.areaIn c = some area := by
  cases m with
  | createCategory => exact hm.elim
  | createField => exact hm.elim
  | dragCategory => exact hm.1
  | dragField => exact hm.1
  | moveFieldToCategory => exact hm.1
  | reorder => exact congrArg some hm
  | _ => exact hm

/-- An operation that acts in an area is local to it. -/
theorem local_perform (hbuiltin : k.registry = .builtin) (hp : h.contents.Positive)
    (hm : m.ActsIn area h.contents) : m.perform.Local area k h := by
  cases m with
  | createCategory area name => exact hm.elim
  | renameCategory id name => exact (local_renameCategory name hp hm).map _
  | deleteCategory id => exact (local_deleteCategory hm).map _
  | moveCategory id direction => exact (local_moveEntry direction hm).map _
  | dragCategory id before => exact (local_dragCategory hm.1 hm.2).map _
  | createField categoryid draft => exact hm.elim
  | updateField id amendment => exact (local_updateField amendment hbuiltin hp hm).map _
  | deleteField id => exact (local_deleteField hm).map _
  | moveField id direction => exact (local_moveEntry direction hm).map _
  | dragField id categoryid before => exact (local_dragField hm.1 hm.2.1 hm.2.2).map _
  | moveFieldToCategory id categoryid =>
    refine (local_dragField hm.1 (fun home hhome => ?_) fun b hb => ?_).map _
    · obtain rfl := Option.some.inj hhome
      exact hm.2
    · exact absurd hb (Option.not_mem_none b)
  | reorder named =>
    obtain rfl : named = area := hm
    exact (local_reorder named k h).map _

end Mutation

end FieldCatalog
