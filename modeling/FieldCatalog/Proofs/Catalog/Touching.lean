import FieldCatalog.Proofs.Catalog.Contiguity
import FieldCatalog.Proofs.Catalog.Creation
import FieldCatalog.Proofs.Catalog.Deletion
import FieldCatalog.Proofs.Catalog.Renumbering

/-!
# What an operation touches

Where every listing stands at its ranks, an operation touches the rows that it has to touch, and in
these the columns that it has to change. Settling an order moves an entry at most once, and an entry
that keeps its place keeps its row; so does every operation that settles one order, and a drag into
another category, which settles two orders that share no entry. An arrow settles its listing before it
exchanges two entries of it, which is no second move where the listing stands at its ranks.

A new name and an amendment are written to the row they are meant for, and to no other.

## Main definitions

* `Category.AtMostMoved`, `Field.AtMostMoved`: a row that has moved or is the same
* `Contents.Touched`: entries that are there before and after have at most moved
* `Statement.Touches`, `Call.Touches`: a statement, or a call, that moves entries at most
* `Mutation.Touched`: what an operation does to the rows that are there before and after

## Main results

* `Contents.touched_settle`: settling an order moves every entry at most once
* `Contents.touched_carry`: a drag into another category does so as well
* `Mutation.touches_perform`: the operations that edit no row
* `Catalog.touching_outcomes`: what an operation that succeeds has touched
-/

namespace FieldCatalog

/-- A category that stands where it has stood is the same, and one that has moved differs in its
position and in its time stamp only. -/
structure Category.AtMostMoved (now : Int) (old row : Category) : Prop where
  same : row.sortorder = old.sortorder → row = old
  moved : row.sortorder ≠ old.sortorder →
    row = { old with sortorder := row.sortorder, timemodified := now }

/-- A field that stands where it has stood is the same, and one that has moved differs in its
position, its category and its time stamp only. -/
structure Field.AtMostMoved (now : Int) (old row : Field) : Prop where
  same : row.sortorder = old.sortorder → row.categoryid = old.categoryid → row = old
  moved : row.sortorder ≠ old.sortorder ∨ row.categoryid ≠ old.categoryid →
    row = { old with
      sortorder := row.sortorder, categoryid := row.categoryid, timemodified := now }

section AtMostMoved

variable (now position : Int)

theorem Category.atMostMoved_refl (row : Category) : row.AtMostMoved now row :=
  ⟨fun _ => rfl, fun h => absurd rfl h⟩

theorem Field.atMostMoved_refl (row : Field) : row.AtMostMoved now row :=
  ⟨fun _ _ => rfl, fun h => h.elim (absurd rfl) (absurd rfl)⟩

theorem Category.atMostMoved_moveTo (row : Category) :
    row.AtMostMoved now (row.moveTo now position) := by
  unfold Category.moveTo
  split
  · exact row.atMostMoved_refl now
  · next hne => exact ⟨fun he => absurd he.symm hne, fun _ => rfl⟩

theorem Field.atMostMoved_moveTo (row : Field) :
    row.AtMostMoved now (row.moveTo now position) := by
  unfold Field.moveTo
  split
  · exact row.atMostMoved_refl now
  · next hne => exact ⟨fun he => absurd he.symm hne, fun _ => rfl⟩

/-- A field that has come into another category has moved, whatever its position there. -/
theorem Field.atMostMoved_rehome (row : Field) {home : Id} (hne : home ≠ row.categoryid) :
    row.AtMostMoved now ((row.rehome home now).moveTo now position) := by
  refine ⟨fun _ he => absurd ((categoryid_moveTo now position _).symm.trans he) hne, fun _ => ?_⟩
  unfold Field.moveTo
  split <;> rfl

end AtMostMoved

/-! ## Contents whose rows have at most moved -/

namespace Contents

variable {c c₁ c' : Contents} {now : Int} {kind : Kind} {scope : Scope} {id : Id}
  {order : List Member}

/-- An entry of either kind has moved or is the same. -/
def AtMostMoved (now : Int) : Category ⊕ Field → Category ⊕ Field → Prop :=
  Sum.LiftRel (Category.AtMostMoved now) (Field.AtMostMoved now)

/-- Every entry that has been there and still is has moved or is the same. -/
def Touched (now : Int) (c c' : Contents) : Prop :=
  ∀ kind id old row, c.row? kind id = some old → c'.row? kind id = some row →
    AtMostMoved now old row

theorem atMostMoved_refl (now : Int) (row : Category ⊕ Field) : AtMostMoved now row row := by
  cases row with
  | inl row => exact .inl (row.atMostMoved_refl now)
  | inr row => exact .inr (row.atMostMoved_refl now)

/-- Entries whose rows are the same or gone have not moved. -/
theorem touched_of_row? (now : Int)
    (h : ∀ kind id old row, c.row? kind id = some old → c'.row? kind id = some row → row = old) :
    c.Touched now c' := by
  intro kind id old row hold hrow
  obtain rfl := h kind id old row hold hrow
  exact atMostMoved_refl now row

theorem touched_refl (c : Contents) (now : Int) : c.Touched now c :=
  touched_of_row? now fun _ _ _ _ hold hrow => Option.some.inj (hrow.symm.trans hold)

theorem Touched.category (h : c.Touched now c') {old row : Category}
    (hold : c.category? id = some old) (hrow : c'.category? id = some row) :
    old.AtMostMoved now row :=
  Sum.liftRel_inl_inl.mp (h .category id (.inl old) (.inl row)
    (congrArg (Option.map Sum.inl) hold) (congrArg (Option.map Sum.inl) hrow))

theorem Touched.field (h : c.Touched now c') {old row : Field} (hold : c.field? id = some old)
    (hrow : c'.field? id = some row) : old.AtMostMoved now row :=
  Sum.liftRel_inr_inr.mp (h .field id (.inr old) (.inr row)
    (congrArg (Option.map Sum.inr) hold) (congrArg (Option.map Sum.inr) hrow))

/-- Settling an order moves every entry at most once. -/
theorem touched_settle (c : Contents) (now : Int) (kind : Kind) (order : List Member) :
    c.Touched now (c.settle now kind order) := by
  intro kind' id old row hold hrow
  cases kind <;> cases kind'
  case category.category =>
    obtain ⟨old, hfound, rfl⟩ := Option.map_eq_some_iff.mp hold
    rw [row?, category?_settle_category, hfound] at hrow
    cases hrow
    exact .inl (old.atMostMoved_moveTo now _)
  case category.field => exact c.touched_refl now .field id old row hold hrow
  case field.category => exact c.touched_refl now .category id old row hold hrow
  case field.field =>
    obtain ⟨old, hfound, rfl⟩ := Option.map_eq_some_iff.mp hold
    rw [row?, field?_settle_field, hfound] at hrow
    cases hrow
    exact .inr (old.atMostMoved_moveTo now _)

/-- Settling an order after some entries have gone moves the others at most once. -/
theorem touched_settle_of_row? (now : Int) (kind : Kind) (order : List Member)
    (h : ∀ kind id, c₁.row? kind id = c.row? kind id ∨ c₁.row? kind id = none) :
    c.Touched now (c₁.settle now kind order) := by
  intro kind' id old row hold hrow
  rcases h kind' id with hsame | hgone
  · exact touched_settle c₁ now kind order kind' id old row (hsame.trans hold) hrow
  · -- An entry that has gone does not come back.
    have hscope := congrArg (Option.map (Sum.elim Category.scope Field.scope)) hgone
    rw [← scope?_eq_map, ← scope?_settle c₁ now kind kind' order, scope?_eq_map, hrow] at hscope
    cases hscope

/-- A new entry behind the others of a contiguous listing leaves the others alone. -/
theorem Appended.touched (h : c.Appended scope id c') (now : Int)
    (hc : Listing.isContiguous (c.list scope) = true) : c.Touched now c' := by
  refine touched_of_row? now fun kind' id' old row hold hrow => ?_
  have hne : ¬ (kind' = scope.kind ∧ id' = id) := by
    rintro ⟨rfl, rfl⟩
    cases h.fresh.symm.trans hold
  rw [h.untouched hc kind' id' hne, hold] at hrow
  exact (Option.some.inj hrow).symm

/-- Other entries than a field that comes into another category keep their rows. -/
theorem row?_rehome_of_ne {field : Field} {home : Id} (now : Int)
    (hfield : c.field? field.id = some field) (hne : ¬ (kind = .field ∧ id = field.id)) :
    (c.rehome field.id home now).row? kind id = c.row? kind id := by
  cases kind with
  | category => rfl
  | field =>
    rw [row?, field?_rehome now hfield, if_neg fun hid => hne ⟨rfl, hid⟩]
    rfl

section Carry

variable {field : Field} {home : Id} (hfield : c.field? field.id = some field)
  (hne : home ≠ field.categoryid)
include hfield hne

/-- A drag into another category moves every entry at most once when it settles the listing that the
field comes into. -/
theorem touched_settle_rehome (now : Int) (order : List Member) :
    c.Touched now ((c.rehome field.id home now).settle now .field order) := by
  intro kind id old row hold hrow
  by_cases hself : kind = .field ∧ id = field.id
  · obtain ⟨rfl, rfl⟩ := hself
    rw [row?, hfield] at hold
    rw [row?, field?_settle_field, field?_rehome now hfield, if_pos rfl] at hrow
    cases hold
    cases hrow
    exact .inr (field.atMostMoved_rehome now _ hne)
  · exact touched_settle _ now .field order kind id old row
      ((row?_rehome_of_ne now hfield hself).trans hold) hrow

/-- What stands in the category that a field has left does not move when the other listing is
settled. -/
theorem row?_settle_rehome_of_left (now : Int)
    (hperm : order.Perm ((c.rehome field.id home now).list (.fields home)))
    (hleft : ((c.rehome field.id home now).settle now .field order).scope? kind id =
      some (.fields field.categoryid)) :
    ((c.rehome field.id home now).settle now .field order).row? kind id = c.row? kind id := by
  rw [scope?_settle] at hleft
  have helsewhere : (c.rehome field.id home now).scope? kind id ≠ some (.fields home) := by
    rw [hleft]
    exact fun he => hne (Scope.fields.inj (Option.some.inj he)).symm
  have hother : ¬ (kind = .field ∧ id = field.id) := by
    rintro ⟨rfl, rfl⟩
    refine helsewhere ?_
    rw [scope?, field?_rehome now hfield, if_pos rfl]
    rfl
  exact (row?_settle_of_scope?_ne now hperm helsewhere).trans (row?_rehome_of_ne now hfield hother)

/-- A drag into another category moves every entry at most once: the two listings that it settles
have no entry in common. -/
theorem touched_carry (now : Int)
    (hperm : order.Perm ((c.rehome field.id home now).list (.fields home))) :
    c.Touched now (((c.rehome field.id home now).settle now .field order).settle now .field
      (((c.rehome field.id home now).settle now .field order).list
        (.fields field.categoryid))) := by
  intro kind id old row hold hrow
  by_cases hleft : ((c.rehome field.id home now).settle now .field order).scope? kind id =
      some (.fields field.categoryid)
  · exact touched_settle _ now .field _ kind id old row
      ((row?_settle_rehome_of_left hfield hne now hperm hleft).trans hold) hrow
  · exact touched_settle_rehome hfield hne now order kind id old row hold
      ((row?_settle_of_scope?_ne now (.refl _) hleft).symm.trans hrow)

end Carry

end Contents

/-! ## Statements -/

namespace Statement

open Contents

variable {α : Type} {s : Statement α} {c c' : Contents} {now : Int}

/-- Whether a statement succeeds or fails, the entries have at most moved. -/
def Touches (s : Statement α) (now : Int) (c : Contents) : Prop :=
  c.Touched now (s.on c).2

theorem touches_of_on {result : Except Failure α} (hon : s.on c = (result, c'))
    (h : c.Touched now c') : s.Touches now c := by
  rw [Touches, hon]
  exact h

theorem touches_addCategory (hc : c.Contiguous) (area : Area) (name : Option String) (now : Int) :
    (addCategory area name now).Touches now c :=
  touches_of_on on_addCategory
    ((appended_withCategory now rfl).touched now (contiguous_iff.mp hc (.categories area)))

theorem touches_addField (hc : c.Contiguous) (categoryid : Id) (draft : Draft) (configdata : String)
    (now : Int) : (addField categoryid draft configdata now).Touches now c := by
  rw [Touches, on_addField]
  split
  · exact c.touched_refl now
  · split
    · exact c.touched_refl now
    · exact (appended_withField now rfl).touched now (contiguous_iff.mp hc (.fields categoryid))

theorem touches_removeEntry (kind : Kind) (id : Id) (now : Int) :
    (removeEntry kind id now).Touches now c := by
  cases hscope : c.scope? kind id with
  | none => exact touches_of_on (on_removeEntry_of_none now hscope) (c.touched_refl now)
  | some scope =>
    refine touches_of_on (on_removeEntry now hscope) (touched_settle_of_row? now _ _ ?_)
    intro kind' id'
    by_cases hgoes : c.GoesWith kind id kind' id'
    · exact .inr (row?_without_of_goesWith hgoes)
    · exact .inl (row?_without_of_not_goesWith hgoes)

/-- The listing of an arrow is settled before two of its entries are exchanged; that is no move where
it stands at its ranks. -/
theorem touches_shiftEntry (hc : c.Contiguous) (kind : Kind) (id : Id) (direction : Direction)
    (now : Int) : (shiftEntry kind id direction now).Touches now c := by
  cases hscope : c.scope? kind id with
  | none => exact touches_of_on (on_shiftEntry_of_none now hscope) (c.touched_refl now)
  | some scope =>
    rw [Touches, on_shiftEntry now hscope, settle_eq_self now (contiguous_iff.mp hc scope)]
    split
    · exact c.touched_refl now
    · exact c.touched_settle now _ _

theorem touches_repositionCategory (id : Id) (before : Option Id) (now : Int) :
    (repositionCategory id before now).Touches now c := by
  cases hrow : c.category? id with
  | none => exact touches_of_on (on_repositionCategory_of_none hrow) (c.touched_refl now)
  | some row =>
    cases hadmits : c.admits row before with
    | error e =>
      exact touches_of_on (on_repositionCategory_of_error hrow hadmits) (c.touched_refl now)
    | ok _ =>
      obtain ⟨order, -, hon⟩ := on_repositionCategory_of_ok now hrow hadmits
      exact touches_of_on hon (c.touched_settle now _ _)

theorem touches_repositionField (id : Id) (categoryid before : Option Id) (now : Int) :
    (repositionField id categoryid before now).Touches now c := by
  cases hfield : c.field? id with
  | none => exact touches_of_on (on_repositionField_of_none hfield) (c.touched_refl now)
  | some field =>
    obtain ⟨-, rfl⟩ := field?_eq_some_iff.mp hfield
    cases hd : c.destination field categoryid before with
    | error e => exact touches_of_on (on_repositionField_of_error hfield hd) (c.touched_refl now)
    | ok home =>
      obtain ⟨hon, hr, hb⟩ := on_repositionField_of_ok now hfield hd
      have htarget : ∀ t, Listing.target before = some t →
          t ∈ (c.list (.fields home)).map Member.id := fun t ht =>
        hb t (Option.filter_eq_some_iff.mp ht).1
      by_cases hne : home = field.categoryid
      · subst hne
        obtain ⟨order, -, hcarry⟩ := on_carryField_self now hfield htarget
        exact touches_of_on (hon.trans hcarry) (c.touched_settle now _ _)
      · obtain ⟨order, ho, hcarry⟩ := on_carryField_of_ne now hfield hr hne htarget
        have hperm := Listing.perm_of_dragged (nodup_ids_list _ (.fields home)) ho
        exact touches_of_on (hon.trans hcarry) (touched_carry hfield hne now hperm)

theorem touches_renumberArea (hc : c.Contiguous) (area : Area) (now : Int) :
    (renumberArea area now).Touches now c := by
  rw [Touches, on_renumberArea, settleEach_eq_self fun scope _ => contiguous_iff.mp hc scope]
  exact c.touched_refl now

end Statement

/-! ## Calls -/

namespace Call

variable {σ α β : Type} {k : Circumstances σ} {h h' : Holdings σ}

theorem bind_eq_ok {first : Call σ α} {next : α → Call σ β} {b : β}
    (hrun : (first >>= next).run k h = (.ok b, h')) :
    ∃ a h₁, first.run k h = (.ok a, h₁) ∧ (next a).run k h₁ = (.ok b, h') :=
  Transaction.bind_eq_ok hrun

/-- A call that succeeds has run its statement on the contents as they were. -/
theorem mutate_eq_ok {body : Int → Statement α} {a : α}
    (hrun : (mutate body).run k h = (.ok a, h')) :
    (body k.now).on h.contents = (.ok a, h'.contents) := by
  rw [run_mutate] at hrun
  split at hrun
  · cases hrun
  · split at hrun
    · next hbody =>
      cases hrun
      exact hbody
    · cases hrun

/-- Whether a call succeeds or fails, the entries have at most moved. -/
def Touches (call : Call σ α) (k : Circumstances σ) (h : Holdings σ) : Prop :=
  h.contents.Touched k.now (call.run k h).2.contents

/-- What a statement touches is touched by its call, unless it is undone. -/
theorem touches_mutate {body : Int → Statement α} (hbody : (body k.now).Touches k.now h.contents) :
    (mutate body).Touches k h := by
  unfold Statement.Touches at hbody
  rw [Touches, run_mutate]
  split
  · exact h.contents.touched_refl k.now
  · split
    · next hrun =>
      rw [hrun] at hbody
      exact hbody
    · exact h.contents.touched_refl k.now

/-- An answer that is put into another form has been given by the same call. -/
theorem Touches.map {call : Call σ α} (hcall : call.Touches k h) (f : α → β) :
    Touches (do let a ← call; return f a) k h := by
  unfold Touches at hcall ⊢
  rw [run_bind]
  rcases hrun : call.run k h with ⟨e | a, h'⟩ <;> rw [hrun] at hcall <;> exact hcall

/-- A first step that leaves the contents alone. -/
theorem touches_bind {first : Call σ α} {next : α → Call σ β}
    (hfirst : (first.run k h).2.contents = h.contents)
    (hnext : ∀ a h', h'.contents = h.contents → (next a).Touches k h') :
    (first >>= next).Touches k h := by
  rw [Touches, run_bind]
  rcases hrun : first.run k h with ⟨e | a, h'⟩ <;> rw [hrun] at hfirst
  · dsimp only at hfirst ⊢
    rw [hfirst]
    exact h.contents.touched_refl k.now
  · have htouched := hnext a h' hfirst
    rw [Touches, hfirst] at htouched
    exact htouched

end Call

/-! ## Operations -/

namespace Mutation

open Contents Catalog

variable {σ : Type} {k : Circumstances σ} {h : Holdings σ} {m : Mutation} {c c' : Contents} {now : Int}
  {id : Id}

/-- An operation that edits no row moves every entry at most once. -/
theorem touches_perform (hc : h.contents.Contiguous)
    (hrename : ∀ id name, m ≠ .renameCategory id name)
    (hupdate : ∀ id amendment, m ≠ .updateField id amendment) : m.perform.Touches k h := by
  have hdelete : ∀ kind id, (deleteEntry kind id).Touches k h := fun kind id => by
    rw [deleteEntry_eq_mutate]
    exact Call.touches_mutate (Statement.touches_removeEntry kind id k.now)
  have hmove : ∀ kind id direction, (moveEntry kind id direction).Touches k h := by
    intro kind id direction
    rw [moveEntry_eq_mutate]
    exact Call.touches_mutate (Statement.touches_shiftEntry hc kind id direction k.now)
  have hdrag : ∀ id categoryid before, (Catalog.dragField id categoryid before).Touches k h :=
    fun id categoryid before =>
      Call.touches_mutate (Statement.touches_repositionField id categoryid _ k.now)
  cases m with
  | createCategory area name =>
    exact (Call.touches_bind rfl fun _ h' hsame => Call.touches_mutate
      (Statement.touches_addCategory (hsame ▸ hc) area name k.now)).map Outcome.category
  | renameCategory id name => exact absurd rfl (hrename id name)
  | deleteCategory id => exact (hdelete .category id).map Outcome.flag
  | moveCategory id direction => exact (hmove .category id direction).map Outcome.flag
  | dragCategory id before =>
    exact (Call.touches_mutate (Statement.touches_repositionCategory id _ k.now)).map
      fun _ => Outcome.done
  | createField categoryid draft =>
    -- The draft is checked and its configuration prepared before the field is added.
    refine (Call.touches_bind rfl fun draft h₁ hsame₁ => ?_).map Outcome.field
    refine Call.touches_bind rfl fun configdata h₂ hsame₂ => Call.touches_mutate ?_
    exact Statement.touches_addField (hsame₂.trans hsame₁ ▸ hc) categoryid draft configdata k.now
  | updateField id amendment => exact absurd rfl (hupdate id amendment)
  | deleteField id => exact (hdelete .field id).map Outcome.flag
  | moveField id direction => exact (hmove .field id direction).map Outcome.flag
  | dragField id categoryid before => exact (hdrag id categoryid before).map fun _ => Outcome.done
  | moveFieldToCategory id categoryid =>
    exact (hdrag id (some categoryid) none).map fun _ => Outcome.done
  | reorder area =>
    exact (Call.touches_bind rfl fun _ h' hsame => Call.touches_mutate
      (Statement.touches_renumberArea (hsame ▸ hc) area k.now)).map Outcome.number

/-- What an operation does to the rows that are there before and after it: the category that is
renamed has its new name, the field that is updated has what it was given, both stand where they have
stood, and every other row has moved or is the same. -/
structure Touched (m : Mutation) (now : Int) (c c' : Contents) : Prop where
  renamed : ∀ id name, m = .renameCategory id name → ∀ old row,
    c.category? id = some old → c'.category? id = some row →
      row = { old with name := Text.trim name, timemodified := now }
  category : ∀ id, (∀ name, m ≠ .renameCategory id name) → ∀ old row,
    c.category? id = some old → c'.category? id = some row → old.AtMostMoved now row
  updated : ∀ id amendment, m = .updateField id amendment → ∀ old row,
    c.field? id = some old → c'.field? id = some row → row = amendment.applied old now
  field : ∀ id, (∀ amendment, m ≠ .updateField id amendment) → ∀ old row,
    c.field? id = some old → c'.field? id = some row → old.AtMostMoved now row

/-- A category that is put back under another name is touched as a renaming touches it. -/
theorem touched_renameCategory {name : String} {old : Category} (hold : c.category? id = some old) :
    (renameCategory id name).Touched now c
      (c.withCategory { old with name := Text.trim name, timemodified := now }) where
  renamed id' name' hm old' row hold' hrow := by
    cases hm
    obtain ⟨-, rfl⟩ := category?_eq_some_iff.mp hold
    obtain rfl := Option.some.inj (hold.symm.trans hold')
    exact Option.some.inj (hrow.symm.trans (category?_withCategory _))
  category id' hne old' row hold' hrow := by
    have hid : id' ≠ old.id := by
      rintro rfl
      exact hne name ((category?_eq_some_iff.mp hold).2 ▸ rfl)
    have hsame : (c.withCategory { old with name := Text.trim name, timemodified := now }).category?
        id' = c.category? id' := category?_withCategory_of_ne hid
    cases hold'.symm.trans (hsame.symm.trans hrow)
    exact old'.atMostMoved_refl now
  updated _ _ hm := nomatch hm
  field _ _ old' row hold' hrow := by
    cases hold'.symm.trans hrow
    exact old'.atMostMoved_refl now

/-- A field that is put back as an amendment wants it is touched as an update touches it. -/
theorem touched_updateField {amendment : Amendment} {old : Field} (hold : c.field? id = some old) :
    (updateField id amendment).Touched now c (c.withField (amendment.applied old now)) where
  renamed _ _ hm := nomatch hm
  category _ _ old' row hold' hrow := by
    cases hold'.symm.trans hrow
    exact old'.atMostMoved_refl now
  updated id' amendment' hm old' row hold' hrow := by
    cases hm
    obtain ⟨-, rfl⟩ := field?_eq_some_iff.mp hold
    obtain rfl := Option.some.inj (hold.symm.trans hold')
    exact Option.some.inj (hrow.symm.trans (field?_withField (amendment.applied old now)))
  field id' hne old' row hold' hrow := by
    have hid : id' ≠ (amendment.applied old now).id := by
      rintro rfl
      exact hne amendment ((field?_eq_some_iff.mp hold).2 ▸ rfl)
    have hsame : (c.withField (amendment.applied old now)).field? id' = c.field? id' :=
      Table.find?_put_of_ne hid
    cases hold'.symm.trans (hsame.symm.trans hrow)
    exact old'.atMostMoved_refl now

end Mutation

namespace Catalog

open Contents

variable {σ : Type} {k : Circumstances σ} {h h' : Holdings σ} {id : Id}

/-- A renamed category is put back under its number with its new name. -/
theorem contents_of_renameCategory {name : String} {row : Category} (hp : h.contents.Positive)
    (hrun : (renameCategory id name).run k h = (.ok row, h')) :
    ∃ old, h.contents.category? id = some old ∧
      h'.contents = h.contents.withCategory
        { old with name := Text.trim name, timemodified := k.now } := by
  obtain ⟨trimmed, h₁, hcheck, hmutate⟩ := Call.bind_eq_ok hrun
  obtain ⟨hname, rfl⟩ : properName "category" name = .ok trimmed ∧ h = h₁ := Prod.mk.inj hcheck
  obtain ⟨rfl, -⟩ := isTrimmed_of_properName hname
  have hbody := Call.mutate_eq_ok hmutate
  rw [Statement.on_retitleCategory] at hbody
  cases hold : h.contents.category? id with
  | none =>
    rw [hold] at hbody
    cases hbody
  | some old =>
    rw [hold] at hbody
    obtain ⟨-, rfl⟩ := category?_eq_some_iff.mp hold
    refine ⟨old, rfl, (Prod.mk.inj hbody).2.symm.trans ?_⟩
    exact congrArg h.contents.withCategory (hp.storedCategory_eq _ hold rfl)

/-- An updated field is put back under its number as the amendment wants it. -/
theorem contents_of_updateField {amendment : Amendment} {row : Field} (hp : h.contents.Positive)
    (hrun : (updateField id amendment).run k h = (.ok row, h')) :
    ∃ old, h.contents.field? id = some old ∧
      h'.contents = h.contents.withField (amendment.applied old k.now) := by
  obtain ⟨old, hold, rfl, hcontents⟩ := updateField_eq_ok hrun
  obtain ⟨-, rfl⟩ := field?_eq_some_iff.mp hold
  refine ⟨old, hold, hcontents.trans ?_⟩
  exact congrArg h.contents.withField
    (hp.storedField_eq (amendment.applied old k.now) hold rfl)

/-- Where every listing stands at its ranks, an operation that succeeds touches no more than it has
to: an entry that is there before and after it is the same unless it stands elsewhere now, and then
nothing about it is new but its position, its category and the time. Only the category that is renamed
and the field that is updated are written in their own right. -/
theorem touching_outcomes (hp : h.contents.Positive) (hc : h.contents.Contiguous) {m : Mutation}
    {outcome : Outcome} (hrun : m.perform.run k h = (.ok outcome, h')) :
    m.Touched k.now h.contents h'.contents := by
  by_cases hrename : ∃ id name, m = .renameCategory id name
  · obtain ⟨id, name, rfl⟩ := hrename
    obtain ⟨row, h₁, hedit, hanswer⟩ := Call.bind_eq_ok hrun
    cases hanswer
    obtain ⟨old, hold, hcontents⟩ := contents_of_renameCategory hp hedit
    exact hcontents ▸ Mutation.touched_renameCategory hold
  by_cases hupdate : ∃ id amendment, m = .updateField id amendment
  · obtain ⟨id, amendment, rfl⟩ := hupdate
    obtain ⟨row, h₁, hedit, hanswer⟩ := Call.bind_eq_ok hrun
    cases hanswer
    obtain ⟨old, hold, hcontents⟩ := contents_of_updateField hp hedit
    exact hcontents ▸ Mutation.touched_updateField hold
  simp only [not_exists] at hrename hupdate
  have htouched : h.contents.Touched k.now (m.perform.run k h).2.contents :=
    Mutation.touches_perform hc hrename hupdate
  rw [hrun] at htouched
  exact
    { renamed := fun id name hm => absurd hm (hrename id name)
      category := fun _ _ _ _ => htouched.category
      updated := fun id amendment hm => absurd hm (hupdate id amendment)
      field := fun _ _ _ _ => htouched.field }

theorem touching_outcomes_sample :
    let k : Circumstances Unit := ⟨.builtin, 3, false, 6⟩
    let h : Holdings Unit := ⟨.sample, ()⟩
    let m := Mutation.dragField 1 (some 2) none
    ∃ h', m.perform.run k h = (.ok .done, h') ∧ m.Touched 6 .sample h'.contents ∧
      h'.contents.field? 1 = some ⟨1, "level", "Level", "text", "", 2, 0, "\x7b\x7d", 5, 6⟩ ∧
      h'.contents.field? 2 = some ⟨2, "credits", "Credits", "text", "", 1, 0, "\x7b\x7d", 5, 6⟩ := by
  intro k h m
  have hrun : m.perform.run k h = (.ok .done, (m.perform.run k h).2) := rfl
  exact ⟨_, hrun, touching_outcomes ⟨by decide, by decide⟩ (by decide) hrun, rfl, rfl⟩

end Catalog

end FieldCatalog
