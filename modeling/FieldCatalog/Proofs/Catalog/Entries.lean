import FieldCatalog.Proofs.Catalog.FieldEffect
import FieldCatalog.Proofs.Store.Rearrangement

/-!
# Entries of either kind

Categories and fields are entries of listings, and most of what happens to the one happens to the
other. An entry is told by its kind and its number; its row, and the listing it stands in, follow.

## Main definitions

* `Contents.row?`, `Contents.scope?`: the row of an entry, and the listing it stands in
* `Contents.unplaced?`: the row without regard to its position and its time stamp

## Main results

* `Contents.row?_moveAll_ne_iff`: moving entries changes the rows that are not in place yet
* `Contents.unplaced?_settle`, `Contents.row?_settle_of_scope?_ne`: what settling leaves alone
-/

namespace FieldCatalog

theorem Category.moveTo_eq_self_iff {now position : Int} {row : Category} :
    row.moveTo now position = row ↔ position = row.member.sortorder := by
  constructor
  · intro h
    have hm := congrArg Category.member h
    rw [Category.member_moveTo] at hm
    exact congrArg Member.sortorder hm
  · rintro rfl
    exact row.moveTo_sortorder now

theorem Field.moveTo_eq_self_iff {now position : Int} {row : Field} :
    row.moveTo now position = row ↔ position = row.member.sortorder := by
  constructor
  · intro h
    have hm := congrArg Field.member h
    rw [Field.member_moveTo] at hm
    exact congrArg Member.sortorder hm
  · rintro rfl
    exact row.moveTo_sortorder now

namespace Contents

variable {c : Contents} {kind kind' : Kind} {scope : Scope} {id : Id} {now : Int}
  {order : List Member}

/-- The row of a kind with the given number. -/
def row? (c : Contents) : Kind → Id → Option (Category ⊕ Field)
  | .category, id => (c.category? id).map .inl
  | .field, id => (c.field? id).map .inr

/-- The listing in which the entry of a kind with the given number stands. -/
def scope? (c : Contents) : Kind → Id → Option Scope
  | .category, id => (c.category? id).map Category.scope
  | .field, id => (c.field? id).map Field.scope

/-- The row of a kind with the given number, without regard to its position and its time stamp. -/
def unplaced? (c : Contents) (kind : Kind) (id : Id) : Option (Category ⊕ Field) :=
  (c.row? kind id).map (Sum.map Category.unplaced Field.unplaced)

/-- The row of an entry tells where it stands. -/
theorem scope?_eq_map (c : Contents) (kind : Kind) (id : Id) :
    c.scope? kind id = (c.row? kind id).map (Sum.elim Category.scope Field.scope) := by
  cases kind <;> simp only [scope?, row?, Option.map_map] <;> rfl

/-- The row of an entry tells its number and position. -/
theorem member?_eq_map (c : Contents) (kind : Kind) (id : Id) :
    c.member? kind id = (c.row? kind id).map (Sum.elim Category.member Field.member) := by
  cases kind <;> simp only [member?, row?, Option.map_map] <;> rfl

theorem scope?_congr {c' : Contents} (h : c'.row? kind id = c.row? kind id) :
    c'.scope? kind id = c.scope? kind id := by
  rw [scope?_eq_map, scope?_eq_map, h]

theorem kind_of_scope? (h : c.scope? kind id = some scope) : scope.kind = kind := by
  cases kind <;> obtain ⟨row, -, rfl⟩ := Option.map_eq_some_iff.mp h <;> rfl

/-- An entry stands in its listing. -/
theorem mem_ids_of_scope? (h : c.scope? kind id = some scope) :
    id ∈ (c.list scope).map Member.id := by
  cases kind with
  | category =>
    obtain ⟨row, hrow, rfl⟩ := Option.map_eq_some_iff.mp h
    exact Statement.mem_ids_of_category? hrow
  | field =>
    obtain ⟨row, hrow, rfl⟩ := Option.map_eq_some_iff.mp h
    exact Statement.mem_ids_of_field? hrow

/-- What is listed stands in its listing. -/
theorem scope?_of_mem_list {m : Member} (hm : m ∈ c.list scope) :
    c.scope? scope.kind m.id = some scope := by
  cases scope with
  | categories area =>
    obtain ⟨row, hrow, rfl, rfl⟩ := mem_list_categories.mp hm
    exact congrArg (Option.map Category.scope) (category?_eq_some_iff.mpr ⟨hrow, rfl⟩)
  | fields home =>
    obtain ⟨row, hrow, rfl, rfl⟩ := mem_list_fields.mp hm
    exact congrArg (Option.map Field.scope) (field?_eq_some_iff.mpr ⟨hrow, rfl⟩)

/-- Settling an order leaves every entry in its listing. -/
theorem scope?_settle (c : Contents) (now : Int) (kind kind' : Kind) (order : List Member)
    (id : Id) : (c.settle now kind order).scope? kind' id = c.scope? kind' id := by
  have hr := rearranged_settle c now kind order
  cases kind' with
  | category =>
    have harea := congrArg (Option.map Scope.categories) (hr.area_eq id)
    rwa [Option.map_map, Option.map_map] at harea
  | field =>
    have hhome := congrArg (Option.map Field.scope) (hr.fields id)
    rwa [Option.map_map, Option.map_map] at hhome

theorem id_of_member? {m : Member} (h : c.member? kind id = some m) : m.id = id := by
  cases kind with
  | category =>
    obtain ⟨row, hrow, rfl⟩ := Option.map_eq_some_iff.mp h
    exact (category?_eq_some_iff.mp hrow).2
  | field =>
    obtain ⟨row, hrow, rfl⟩ := Option.map_eq_some_iff.mp h
    exact (field?_eq_some_iff.mp hrow).2

/-- Moving the entries of a kind changes the rows that are not in place yet, and no others. -/
theorem row?_moveAll_ne_iff {position : Member → Int} :
    (c.moveAll now kind position).row? kind' id ≠ c.row? kind' id ↔
      kind' = kind ∧ ∃ m, c.member? kind id = some m ∧ position m ≠ m.sortorder := by
  cases kind <;> cases kind'
  case category.category =>
    simp only [row?, member?, moveAll, category?, Table.find?_mapRows]
    cases c.categories.find? id with
    | none => simp
    | some row => simp [Category.moveTo_eq_self_iff]
  case category.field => simp [row?, moveAll, field?]
  case field.category => simp [row?, moveAll, category?]
  case field.field =>
    simp only [row?, member?, moveAll, field?, Table.find?_mapRows]
    cases c.fields.find? id with
    | none => simp
    | some row => simp [Field.moveTo_eq_self_iff]

/-- Settling an order changes nothing but positions and time stamps. -/
theorem unplaced?_settle (c : Contents) (now : Int) (kind : Kind) (order : List Member)
    (kind' : Kind) (id : Id) :
    (c.settle now kind order).unplaced? kind' id = c.unplaced? kind' id := by
  have hr := rearranged_settle c now kind order
  cases kind' with
  | category =>
    have hid := congrArg (Option.map (Sum.inl (β := Field))) (hr.categories id)
    simp only [unplaced?, row?, Option.map_map] at hid ⊢
    exact hid
  | field =>
    have hid := congrArg (Option.map (Sum.inr (α := Category))) (hr.fields id)
    simp only [unplaced?, row?, Option.map_map] at hid ⊢
    exact hid

/-- Settling a listing does not touch what stands elsewhere. -/
theorem row?_settle_of_scope?_ne (now : Int) (h : order.Perm (c.list scope))
    (hne : c.scope? kind id ≠ some scope) :
    (c.settle now scope.kind order).row? kind id = c.row? kind id := by
  by_contra hchanged
  obtain ⟨rfl, m, hm, hmoved⟩ := row?_moveAll_ne_iff.mp hchanged
  obtain rfl := id_of_member? hm
  refine hmoved (Listing.rankIn_of_not_mem fun hlisted => hne ?_)
  obtain ⟨n, hn, hid⟩ := List.mem_map.mp hlisted
  exact hid ▸ scope?_of_mem_list (h.mem_iff.mp hn)

end Contents

end FieldCatalog
