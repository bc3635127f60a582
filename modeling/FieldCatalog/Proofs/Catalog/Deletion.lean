import FieldCatalog.Proofs.Catalog.Calling
import FieldCatalog.Proofs.Catalog.Dragging
import FieldCatalog.Proofs.Catalog.Entries

/-!
# Deletions

What a deletion leads to, whatever order it finds. An entry that does not exist is not deleted: the
answer is `false`, and nothing changes. Otherwise the answer is `true`. The entry is gone, and with a
category its fields are; the listing that it has stood in closes the gap, and nothing else is touched.
There is nothing left then for another deletion.

## Main definitions

* `Contents.GoesWith`: what is deleted along with an entry
* `Contents.Removed`: what the deletion of an entry leads to
* `Catalog.deleteEntry`: the deletions of categories and of fields

## Main results

* `Contents.row?_without_of_goesWith`, `Contents.row?_without_of_not_goesWith`: what is gone, and what
  is left
* `Contents.removed_settle`: the gap is closed by settling the listing
* `Catalog.deleteEntry_outcomes`: the outcomes of a deletion
-/

namespace FieldCatalog

namespace Contents

variable {c : Contents} {kind kind' : Kind} {scope : Scope} {id id' : Id}

/-- What goes when an entry is deleted: the entry itself, and with a category its fields. -/
def GoesWith (c : Contents) (kind : Kind) (id : Id) (kind' : Kind) (id' : Id) : Prop :=
  kind' = kind ∧ id' = id ∨ kind = .category ∧ c.scope? kind' id' = some (.fields id)

/-- The contents without an entry and what goes with it. -/
def without (c : Contents) : Kind → Id → Contents
  | .category, id => c.withoutCategory id
  | .field, id => c.withoutField id

/-- What the deletion of an entry leads to: what goes with the entry is gone, whatever else there has
been is still there, the listing of the entry stands in the order it has had, and all that has stood
elsewhere is the same. -/
structure Removed (c : Contents) (kind : Kind) (id : Id) (scope : Scope) (c' : Contents) : Prop where
  goes : ∀ kind' id', c.GoesWith kind id kind' id' → c'.row? kind' id' = none
  stays : ∀ kind' id', ¬ c.GoesWith kind id kind' id' →
    c'.unplaced? kind' id' = c.unplaced? kind' id'
  closes : c'.StandsAs scope (((c.list scope).map Member.id).filter (· ≠ id))
  elsewhere : ∀ kind' id', ¬ c.GoesWith kind id kind' id' → c.scope? kind' id' ≠ some scope →
    c'.row? kind' id' = c.row? kind' id'

/-! ## What is gone, and what is left -/

/-- Without a category there are the fields of the others. -/
theorem field?_withoutCategory (c : Contents) (removed id : Id) :
    (c.withoutCategory removed).field? id =
      (c.field? id).filter fun row => row.categoryid != removed :=
  c.fields.find?_eraseWhere _ id

theorem row?_without_of_goesWith (h : c.GoesWith kind id kind' id') :
    (c.without kind id).row? kind' id' = none := by
  rcases h with ⟨rfl, rfl⟩ | ⟨rfl, hscope⟩
  · cases kind' with
    | category => exact Option.map_eq_none_iff.mpr (c.categories.find?_erase_self id')
    | field => exact Option.map_eq_none_iff.mpr (c.fields.find?_erase_self id')
  · -- A field that stands in a category is deleted along with it.
    obtain rfl : Kind.field = kind' := kind_of_scope? hscope
    obtain ⟨row, hrow, hhome⟩ := Option.map_eq_some_iff.mp hscope
    obtain rfl : row.categoryid = id := Scope.fields.inj hhome
    refine Option.map_eq_none_iff.mpr ?_
    rw [without, field?_withoutCategory, hrow, Option.filter_some, if_neg (by simp)]

theorem row?_without_of_not_goesWith (h : ¬ c.GoesWith kind id kind' id') :
    (c.without kind id).row? kind' id' = c.row? kind' id' := by
  obtain ⟨hself, hhome⟩ := not_or.mp h
  cases kind <;> cases kind'
  case category.category =>
    exact congrArg (Option.map Sum.inl)
      (c.categories.find?_erase_of_ne fun hid => hself ⟨rfl, hid⟩)
  case category.field =>
    -- A field that stands in another category is not among those that are deleted.
    refine congrArg (Option.map Sum.inr) ?_
    rw [without, field?_withoutCategory]
    cases hrow : c.field? id' with
    | none => rfl
    | some row =>
      have hne : row.categoryid ≠ id := by
        rintro rfl
        exact hhome ⟨rfl, congrArg (Option.map Field.scope) hrow⟩
      rw [Option.filter_some, if_pos (bne_iff_ne.mpr hne)]
  case field.category => rfl
  case field.field =>
    exact congrArg (Option.map Sum.inr) (c.fields.find?_erase_of_ne fun hid => hself ⟨rfl, hid⟩)

/-- The listing of a deleted entry has lost this entry, and no other. -/
theorem list_without (hscope : c.scope? kind id = some scope) :
    (c.without kind id).list scope = (c.list scope).filter fun m => m.id != id := by
  refine list_eq ((c.pairwise_list scope).filter _) fun m => ?_
  rw [List.mem_filter, bne_iff_ne]
  cases kind with
  | category =>
    obtain ⟨row, -, rfl⟩ := Option.map_eq_some_iff.mp hscope
    exact mem_list_withoutCategory
  | field =>
    obtain ⟨row, -, rfl⟩ := Option.map_eq_some_iff.mp hscope
    exact mem_list_withoutField

/-- Once an entry is gone, settling its listing closes the gap. -/
theorem removed_settle (now : Int) (hscope : c.scope? kind id = some scope) :
    c.Removed kind id scope ((c.without kind id).settle now scope.kind
      ((c.without kind id).list scope)) where
  goes kind' id' h := by
    have hgone := row?_without_of_goesWith h
    rw [row?_settle_of_scope?_ne now (.refl _), hgone]
    rw [scope?_eq_map, hgone]
    simp
  stays kind' id' h := by
    rw [unplaced?_settle, unplaced?, unplaced?, row?_without_of_not_goesWith h]
  closes := by
    rw [← Listing.map_id_others, ← list_without hscope]
    exact standsAs_settle now (.refl _)
  elsewhere kind' id' h hne := by
    have hsame := row?_without_of_not_goesWith h
    rw [row?_settle_of_scope?_ne now (.refl _) (scope?_congr hsame ▸ hne), hsame]

end Contents

/-! ## The outcomes of a deletion -/

namespace Statement

open Contents

variable {c : Contents} {kind : Kind} {scope : Scope} {id : Id}

/-- Deletes an entry of either kind. -/
def removeEntry : Kind → Id → Int → Statement Bool
  | .category => removeCategory
  | .field => removeField

theorem on_removeEntry_of_none (now : Int) (hnone : c.scope? kind id = none) :
    (removeEntry kind id now).on c = (.ok false, c) := by
  cases kind with
  | category => rw [removeEntry, on_removeCategory, Option.map_eq_none_iff.mp hnone]
  | field => rw [removeEntry, on_removeField, Option.map_eq_none_iff.mp hnone]

theorem on_removeEntry (now : Int) (hscope : c.scope? kind id = some scope) :
    (removeEntry kind id now).on c =
      (.ok true, (c.without kind id).settle now scope.kind ((c.without kind id).list scope)) := by
  cases kind with
  | category =>
    obtain ⟨row, hrow, rfl⟩ := Option.map_eq_some_iff.mp hscope
    rw [removeEntry, on_removeCategory, hrow]
    rfl
  | field =>
    obtain ⟨row, hrow, rfl⟩ := Option.map_eq_some_iff.mp hscope
    rw [removeEntry, on_removeField, hrow]
    rfl

end Statement

namespace Catalog

open Contents Statement

variable {σ : Type} {k : Circumstances σ} {h : Holdings σ} {kind : Kind} {scope : Scope} {id : Id}

/-- Deletes an entry of either kind. The answer tells whether it existed. -/
def deleteEntry : Kind → Id → Call σ Bool
  | .category => deleteCategory
  | .field => deleteField

theorem deleteEntry_eq_mutate (kind : Kind) (id : Id) :
    (deleteEntry kind id : Call σ Bool) = Call.mutate (removeEntry kind id) := by
  cases kind <;> rfl

/-- An entry that does not exist is not deleted. -/
theorem run_deleteEntry_of_none (hheld : k.heldElsewhere = false)
    (hnone : h.contents.scope? kind id = none) :
    (deleteEntry kind id).run k h = (.ok false, h) := by
  rw [deleteEntry_eq_mutate]
  exact Call.run_mutate_of_ok hheld (on_removeEntry_of_none k.now hnone)

/-- While nobody else holds the write lock, an entry that exists is deleted with what goes with it,
its listing closes the gap, and a second deletion finds nothing. -/
theorem deleteEntry_outcomes (hheld : k.heldElsewhere = false) (kind : Kind) (id : Id) :
    (h.contents.scope? kind id = none → (deleteEntry kind id).run k h = (.ok false, h)) ∧
    ∀ scope, h.contents.scope? kind id = some scope →
      ∃ c', (deleteEntry kind id).run k h = (.ok true, { h with contents := c' }) ∧
        h.contents.Removed kind id scope c' ∧
        ∀ k' : Circumstances σ, k'.heldElsewhere = false →
          (deleteEntry kind id).run k' { h with contents := c' } =
            (.ok false, { h with contents := c' }) := by
  refine ⟨run_deleteEntry_of_none hheld, fun scope hscope => ?_⟩
  have hremoved := removed_settle k.now hscope
  refine ⟨_, ?_, hremoved, fun k' hheld' => run_deleteEntry_of_none hheld' ?_⟩
  · rw [deleteEntry_eq_mutate]
    exact Call.run_mutate_of_ok hheld (on_removeEntry k.now hscope)
  · -- The entry itself is among what has gone.
    rw [scope?_eq_map, hremoved.goes kind id (.inl ⟨rfl, rfl⟩), Option.map_none]

theorem deleteEntry_outcomes_disordered :
    let k : Circumstances Unit := ⟨.builtin, 3, false, 6⟩
    let h : Holdings Unit := ⟨.disordered, ()⟩
    (deleteEntry .field 3).run k h = (.ok false, h) ∧
      ∃ c', (deleteEntry .category (-3)).run k h = (.ok true, { h with contents := c' }) ∧
        c'.row? .field 1 = none ∧ c'.row? .field 4 = h.contents.row? .field 4 ∧
        c'.StandsAs (.categories ⟨"core", "course", 0⟩) [2, 0] ∧
        (deleteEntry .category (-3)).run k { h with contents := c' } =
          (.ok false, { h with contents := c' }) := by
  intro k h
  obtain ⟨c', hrun, hremoved, hagain⟩ :=
    (deleteEntry_outcomes (k := k) (h := h) rfl .category (-3)).2 _ rfl
  refine ⟨(deleteEntry_outcomes (k := k) (h := h) rfl .field 3).1 rfl, c', hrun,
    hremoved.goes .field 1 (.inr ⟨rfl, rfl⟩), hremoved.elsewhere .field 4 ?_ ?_, hremoved.closes,
    hagain k rfl⟩
  · rintro (⟨h, -⟩ | ⟨-, h⟩) <;> cases h
  · exact fun h => nomatch h

end Catalog

end FieldCatalog
