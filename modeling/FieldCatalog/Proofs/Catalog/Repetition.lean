import FieldCatalog.Proofs.Catalog.Agreement
import FieldCatalog.Proofs.Catalog.Touching

/-!
# Drags that are repeated

A drag that has succeeded leaves its entry where it was to go: in the category that was named, before
its target or last, in a listing at its ranks. A drag that finds its entry there works out the order
that there is, and settling an order at its ranks writes no row. So the second drag succeeds as well,
and not even a time stamp shows that it has run. This does not depend on the positions that the first
one has found, nor on whether it has moved its entry from one category to another.

## Main definitions

* `Contents.InPlace`: an entry that stands where a drag is to put it

## Main results

* `Statement.inPlace_of_repositionCategory`, `Statement.inPlace_of_repositionField`: a drag leaves its
  entry in place
* `Statement.on_repositionEntry_of_inPlace`: a drag of an entry that is in place changes nothing
* `Catalog.drag_repeated`: so a drag that is repeated changes nothing
-/

namespace FieldCatalog

/-! ## Being in place -/

namespace Listing

variable {id : Id} {before : Option Id} {old new : List Id}

/-- What has been put before its target stands before it already. -/
theorem PlacedBefore.again (h : PlacedBefore old id before new) : PlacedBefore new id before new := by
  by_cases hself : before = some id
  · exact (if_pos hself).mpr rfl
  · refine h.of_filter hself ?_
    rw [PlacedBefore, if_neg hself] at h
    obtain ⟨front, back, hcut, rfl, -⟩ := h
    -- Taking the number out again leaves the others.
    rw [List.filter_append, List.filter_cons_of_neg (by simp), ← List.filter_append, ← hcut,
      List.filter_filter]
    simp

/-- The target stands in the order as well. -/
theorem PlacedBefore.target_mem {target : Id} (h : PlacedBefore old id before new) (hid : id ∈ new)
    (ht : before = some target) : target ∈ new := by
  subst ht
  unfold PlacedBefore at h
  split at h
  · next hself => exact Option.some.inj hself ▸ hid
  · obtain ⟨front, back, -, rfl, hhead⟩ := h
    exact List.mem_append_right _ (List.mem_cons_of_mem _ (List.mem_of_mem_head? hhead))

end Listing

namespace Contents

variable {c : Contents} {field : Field} {home : Id} {categoryid before : Option Id}

/-- An entry stands where a drag is to put it: in the category that is named, before its target or
last, in a listing at its ranks. -/
structure InPlace (c : Contents) (kind : Kind) (id : Id) (categoryid before : Option Id) (scope : Scope)
    (order : List Id) : Prop where
  listed : c.scope? kind id = some scope
  named : ∀ home ∈ categoryid, scope = .fields home
  stands : c.StandsAs scope order
  placed : Listing.PlacedBefore order id before order

/-- A field that may be dragged goes where its drag is aimed at. -/
theorem aim_eq_of_destination (h : c.destination field categoryid before = .ok home) :
    c.aim field categoryid before = home := by
  by_cases hgood : ∀ target, before = some target →
      ∃ row, c.field? target = some row ∧ row.categoryid = c.aim field categoryid before
  · rw [destination_eq_reachable hgood] at h
    exact Statement.eq_of_reachable h
  · push Not at hgood
    obtain ⟨target, rfl, hbad⟩ := hgood
    rw [destination_eq_error hbad] at h
    cases h

end Contents

namespace Statement

open Contents

variable {c c' : Contents} {kind : Kind} {scope : Scope} {id : Id} {categoryid before : Option Id}
  {order : List Id} {now : Int}

theorem inPlace_of_repositionCategory
    (h : (repositionCategory id (Listing.target before) now).on c = (.ok (), c')) :
    ∃ scope order, c'.InPlace .category id none (Listing.target before) scope order := by
  cases hrow : c.category? id with
  | none => cases (on_repositionCategory_of_none hrow).symm.trans h
  | some row =>
    cases hadmits : c.admits row (Listing.target before) with
    | error e => cases (on_repositionCategory_of_error hrow hadmits).symm.trans h
    | ok _ =>
      obtain ⟨order, ho, hon⟩ := on_repositionCategory_of_ok now hrow hadmits
      rw [Listing.target_target] at ho
      obtain rfl : _ = c' := (Prod.mk.inj (hon.symm.trans h)).2
      have hlisted : c.scope? .category id = some row.scope := congrArg (Option.map _) hrow
      have hperm := Listing.perm_of_dragged (c.nodup_ids_list row.scope) ho
      exact ⟨row.scope, order.map Member.id,
        { listed := (scope?_settle c now .category .category order id).trans hlisted
          named := fun home hhome => nomatch hhome
          stands := standsAs_settle now hperm
          placed := (Listing.placedBefore_of_dragged (mem_ids_of_scope? hlisted) ho).again }⟩

theorem inPlace_of_repositionField
    (h : (repositionField id categoryid (Listing.target before) now).on c = (.ok (), c')) :
    ∃ scope order, c'.InPlace .field id categoryid (Listing.target before) scope order := by
  cases hfield : c.field? id with
  | none => cases (on_repositionField_of_none hfield).symm.trans h
  | some field =>
    obtain ⟨-, rfl⟩ := field?_eq_some_iff.mp hfield
    cases hdestination : c.destination field categoryid (Listing.target before) with
    | error e => cases (on_repositionField_of_error hfield hdestination).symm.trans h
    | ok home =>
      obtain ⟨_, hon, hcarried⟩ := on_repositionField_carried now hfield hdestination
      rw [Listing.target_target] at hcarried
      obtain rfl : _ = c' := (Prod.mk.inj (hon.symm.trans h)).2
      obtain ⟨order, hstands, hplaced⟩ := hcarried.arrives
      refine ⟨.fields home, order,
        { listed := (hcarried.scope?_eq field.id).trans (if_pos rfl)
          named := fun named hnamed => ?_
          stands := hstands
          placed := hplaced.again }⟩
      obtain rfl := Option.mem_def.mp hnamed
      exact congrArg Scope.fields (aim_eq_of_destination hdestination).symm

/-- A drag of an entry that is in place changes nothing. -/
theorem on_repositionEntry_of_inPlace (now : Int)
    (h : c.InPlace kind id categoryid (Listing.target before) scope order) :
    (repositionEntry kind id categoryid (Listing.target before) now).on c = (.ok (), c) := by
  have hb : ∀ target, Listing.target before = some target →
      target ∈ (c.list scope).map Member.id := by
    rw [h.stands.ids]
    exact fun target => h.placed.target_mem (h.stands.ids ▸ mem_ids_of_scope? h.listed)
  obtain ⟨order', -, hplaced, hon⟩ := on_repositionEntry now h.listed h.named hb
  have hnodup := c.nodup_ids_list scope
  rw [Listing.target_target, h.stands.ids] at hplaced
  rw [h.stands.ids] at hnodup
  -- The drag settles the order in which the listing stands.
  have hsame : order'.map Member.id = (c.list scope).map Member.id :=
    (hplaced.unique hnodup h.placed).trans h.stands.ids.symm
  rw [hon, settle_congr c now scope.kind hsame, h.stands.settle_eq_self]

end Statement

/-! ## Running a drag again -/

namespace Catalog

open Contents Statement

variable {σ : Type} {k k' : Circumstances σ} {h h' : Holdings σ} {scope : Scope} {id : Id}
  {categoryid before : Option Id} {order : List Id}

/-- A drag of an entry that is in place succeeds and changes nothing. -/
theorem run_dragEntry_of_inPlace (kind : Kind) (hheld : k.heldElsewhere = false)
    (hplace : h.contents.InPlace kind id categoryid (Listing.target before) scope order) :
    (dragEntry kind id categoryid before).run k h = (.ok (), h) := by
  rw [dragEntry_eq_mutate]
  exact Call.run_mutate_of_ok hheld (on_repositionEntry_of_inPlace k.now hplace)

/-- A drag that has succeeded succeeds again at any time at which nobody else holds the write lock, and
changes nothing then. -/
theorem drag_repeated (hheld : k'.heldElsewhere = false) (id : Id) :
    (∀ before, (dragCategory id before).run k h = (.ok (), h') →
      (dragCategory id before).run k' h' = (.ok (), h')) ∧
    (∀ categoryid before, (dragField id categoryid before).run k h = (.ok (), h') →
      (dragField id categoryid before).run k' h' = (.ok (), h')) ∧
    ∀ categoryid, (moveFieldToCategory id categoryid).run k h = (.ok (), h') →
      (moveFieldToCategory id categoryid).run k' h' = (.ok (), h') := by
  have hfield (categoryid before : Option Id)
      (hrun : (dragField id categoryid before).run k h = (.ok (), h')) :
      (dragField id categoryid before).run k' h' = (.ok (), h') := by
    obtain ⟨scope, order, hplace⟩ := inPlace_of_repositionField (Call.mutate_eq_ok hrun)
    exact run_dragEntry_of_inPlace .field hheld hplace
  refine ⟨fun before hrun => ?_, hfield, fun categoryid => hfield (some categoryid) none⟩
  obtain ⟨scope, order, hplace⟩ := inPlace_of_repositionCategory (Call.mutate_eq_ok hrun)
  exact run_dragEntry_of_inPlace .category hheld hplace

/-- A field is dragged into another category, and a category within its area. Three seconds later the
same drags change nothing. -/
theorem drag_repeated_disordered :
    let k : Circumstances Unit := ⟨.builtin, 3, false, 6⟩
    let h : Holdings Unit := ⟨.disordered, ()⟩
    (∃ h', (dragField 4 none (some 2)).run k h = (.ok (), h') ∧
      (h'.contents.list (.fields (-3))).map Member.id = [1, 4, 2] ∧
      (dragField 4 none (some 2)).run { k with now := 9 } h' = (.ok (), h')) ∧
    ∃ h', (dragCategory 0 (some 2)).run k h = (.ok (), h') ∧
      (h'.contents.list (.categories ⟨"core", "course", 0⟩)).map Member.id = [0, 2, -3] ∧
      (dragCategory 0 (some 2)).run { k with now := 9 } h' = (.ok (), h') := by
  intro k h
  have hfield : ((dragField 4 none (some 2)).run k h).1 = .ok () := by rfl
  have hcategory : ((dragCategory 0 (some 2)).run k h).1 = .ok () := by rfl
  exact ⟨⟨_, Prod.ext hfield rfl, by rfl,
      (drag_repeated rfl 4).2.1 none (some 2) (Prod.ext hfield rfl)⟩,
    ⟨_, Prod.ext hcategory rfl, by rfl, (drag_repeated rfl 0).1 (some 2) (Prod.ext hcategory rfl)⟩⟩

end Catalog

end FieldCatalog
