import FieldCatalog.Proofs.Listing.Arrangement
import FieldCatalog.Store.Contents
import Mathlib.Data.List.Nodup

/-!
# Settling an order

To settle an order is to give its entries their ranks as positions, stamping the rows that have to
move. Every operation on a catalog repairs its listings in this way, so that what a listing looks
like afterwards follows from three facts: a settled listing stands in the order that was settled,
no other listing changes, and nothing but positions and time stamps does.

## Main definitions

* `Table.mapRows`: every row replaced by its image
* `Category.moveTo`, `Field.moveTo`: a row at a position
* `Contents.settle`: the contents after an order has been settled

## Main results

* `Contents.list_categories`, `Contents.list_fields`: entries and rows are listed alike
* `Contents.mem_list_categories`, `Contents.mem_list_fields`: the members of a listing
* `Contents.pairwise_list`, `Contents.list_eq`: a listing is in order, and determined by its members
* `Contents.list_settle`: a settled listing stands in the settled order
* `Contents.list_settle_of_ne`: the other listings stay as they are
-/

namespace FieldCatalog

/-! ## Tables -/

namespace Table

variable {α : Type} {key : α → Int}

instance {P : α → Prop} [DecidablePred P] (t : Table α key) : Decidable (∀ row ∈ t, P row) :=
  inferInstanceAs (Decidable (∀ row ∈ t.rows, P row))

instance {P : α → Prop} [DecidablePred P] (t : Table α key) : Decidable (∃ row ∈ t, P row) :=
  inferInstanceAs (Decidable (∃ row ∈ t.rows, P row))

/-- The table with every row replaced by its image under a function that keeps keys. -/
def mapRows (t : Table α key) (f : α → α) (keeps : ∀ row, key (f row) = key row) : Table α key :=
  ⟨t.rows.map f, List.pairwise_map.mpr (t.ascending.imp fun {a b} h => by simpa [keeps] using h)⟩

@[simp] theorem mem_mapRows {t : Table α key} {f : α → α} {keeps : ∀ row, key (f row) = key row}
    {x : α} : x ∈ t.mapRows f keeps ↔ ∃ row ∈ t, f row = x :=
  List.mem_map

/-- A change of one row is a change of every row that leaves the others alone. -/
theorem modify_eq_mapRows (t : Table α key) (k : Int) (f : α → α)
    (keeps : ∀ row, key (f row) = key row) :
    t.modify k f keeps = t.mapRows (fun row => if key row = k then f row else row)
      (fun row => by split <;> simp [keeps]) :=
  rfl

theorem mapRows_mapRows (t : Table α key) {f g : α → α} (hf : ∀ row, key (f row) = key row)
    (hg : ∀ row, key (g row) = key row) :
    (t.mapRows f hf).mapRows g hg =
      t.mapRows (fun row => g (f row)) fun row => (hg _).trans (hf row) :=
  Table.ext (by simp [mapRows, Function.comp_def])

theorem mapRows_congr {t : Table α key} {f g : α → α} {hf : ∀ row, key (f row) = key row}
    {hg : ∀ row, key (g row) = key row} (h : ∀ row ∈ t, f row = g row) :
    t.mapRows f hf = t.mapRows g hg :=
  Table.ext (List.map_congr_left h)

theorem mapRows_eq_self {t : Table α key} {f : α → α} {hf : ∀ row, key (f row) = key row}
    (h : ∀ row ∈ t, f row = row) : t.mapRows f hf = t :=
  Table.ext ((List.map_congr_left h).trans (List.map_id _))

/-- The keys of a table are different. -/
theorem nodup_keys (t : Table α key) : (t.rows.map key).Nodup :=
  List.pairwise_map.mpr (t.ascending.imp fun h => Int.ne_of_lt h)

/-- The keys of selected rows are different. -/
theorem pairwise_filter_key_ne (t : Table α key) (p : α → Bool) :
    (t.rows.filter p).Pairwise fun a b => key a ≠ key b :=
  (t.ascending.filter p).imp fun h => Int.ne_of_lt h

/-- A table has no two rows of one key. -/
theorem eq_of_key_eq {t : Table α key} {a b : α} (ha : a ∈ t) (hb : b ∈ t) (h : key a = key b) :
    a = b :=
  Option.some.inj ((find?_eq_some_iff.mpr ⟨ha, h⟩).symm.trans (find?_eq_some_iff.mpr ⟨hb, rfl⟩))

/-- A table is determined by its rows. -/
theorem eq_of_mem_iff {t t' : Table α key} (h : ∀ row, row ∈ t ↔ row ∈ t') : t = t' := by
  -- The rows of a table stand in ascending order, which leaves no choice.
  have hnodup (t : Table α key) : t.rows.Nodup := List.Nodup.of_map key t.nodup_keys
  have hperm := (List.perm_ext_iff_of_nodup (hnodup t) (hnodup t')).mpr h
  exact Table.ext (hperm.eq_of_pairwise
    (fun a b _ _ hab hba => absurd hab (Int.lt_asymm hba)) t.ascending t'.ascending)

theorem find?_mapRows (t : Table α key) (f : α → α) (keeps : ∀ row, key (f row) = key row)
    (k : Int) : (t.mapRows f keeps).find? k = (t.find? k).map f := by
  -- Keys determine rows, so it is enough that the image of the row found has its key.
  cases h : t.find? k with
  | none =>
    rw [find?_eq_none_iff] at h
    refine find?_eq_none_iff.mpr fun x hx => ?_
    obtain ⟨row, hrow, rfl⟩ := mem_mapRows.mp hx
    rw [keeps]
    exact h row hrow
  | some row =>
    obtain ⟨hrow, hk⟩ := find?_eq_some_iff.mp h
    exact find?_eq_some_iff.mpr ⟨mem_mapRows.mpr ⟨row, hrow, rfl⟩, (keeps row).trans hk⟩

/-- The row of a key is found as it has been changed. -/
theorem find?_modify_self (t : Table α key) (k : Int) (f : α → α)
    (keeps : ∀ row, key (f row) = key row) : (t.modify k f keeps).find? k = (t.find? k).map f := by
  rw [modify_eq_mapRows, find?_mapRows]
  refine Option.map_congr fun row hrow => if_pos ?_
  exact (find?_eq_some_iff.mp hrow).2

/-- A change of one row does not reach the rows of other keys. -/
theorem find?_modify_of_ne (t : Table α key) {k k' : Int} (f : α → α)
    (keeps : ∀ row, key (f row) = key row) (h : k' ≠ k) :
    (t.modify k f keeps).find? k' = t.find? k' := by
  rw [modify_eq_mapRows, find?_mapRows]
  refine (Option.map_congr fun row hrow => if_neg ?_).trans Option.map_id'
  exact (find?_eq_some_iff.mp hrow).2 ▸ h

/-- Without a row of the key there is nothing to change. -/
theorem modify_eq_self {t : Table α key} {k : Int} {f : α → α}
    {keeps : ∀ row, key (f row) = key row} (h : t.find? k = none) : t.modify k f keeps = t := by
  rw [modify_eq_mapRows]
  exact mapRows_eq_self fun row hrow => if_neg (find?_eq_none_iff.mp h row hrow)

/-- The key of the next new row is not in use. -/
theorem find?_nextKey (t : Table α key) : t.find? t.nextKey = none :=
  find?_eq_none_iff.mpr fun _ hrow => Int.ne_of_lt (lt_nextKey hrow)

/-- A row that is put into a table does not hide the rows of other keys. -/
theorem find?_put_of_ne {t : Table α key} {row : α} {k : Int} (h : k ≠ key row) :
    (t.put row).find? k = t.find? k := by
  refine Option.ext fun other => ?_
  rw [find?_eq_some_iff, find?_eq_some_iff, mem_put]
  constructor
  · rintro ⟨rfl | ⟨hmem, -⟩, hk⟩
    · exact absurd hk.symm h
    · exact ⟨hmem, hk⟩
  · rintro ⟨hmem, hk⟩
    exact ⟨.inr ⟨hmem, hk ▸ h⟩, hk⟩

/-- Look-up in a table without some rows finds what it has found, unless that is one of them. -/
theorem find?_eraseWhere (t : Table α key) (p : α → Bool) (k : Int) :
    (t.eraseWhere p).find? k = (t.find? k).filter fun row => !p row := by
  refine Option.ext fun row => ?_
  rw [Option.filter_eq_some_iff, find?_eq_some_iff, find?_eq_some_iff, mem_eraseWhere,
    Bool.not_eq_true', and_right_comm]

theorem find?_erase_self (t : Table α key) (k : Int) : (t.erase k).find? k = none :=
  find?_eq_none_iff.mpr fun _ hrow => (mem_erase.mp hrow).2

theorem find?_erase_of_ne (t : Table α key) {k k' : Int} (h : k' ≠ k) :
    (t.erase k).find? k' = t.find? k' := by
  refine Option.ext fun row => ?_
  rw [find?_eq_some_iff, find?_eq_some_iff, mem_erase, and_right_comm]
  exact and_iff_left_of_imp fun hrow => hrow.2 ▸ h

end Table

/-! ## The members of a listing -/

namespace Contents

variable {c : Contents} {scope scope' : Scope} {m n : Member}

theorem mem_categoriesOf {area : Area} {row : Category} :
    row ∈ c.categoriesOf area ↔ row ∈ c.categories ∧ row.area = area := by
  simp [categoriesOf, Table.mem_def]

theorem mem_fieldsOf {id : Id} {row : Field} :
    row ∈ c.fieldsOf id ↔ row ∈ c.fields ∧ row.categoryid = id := by
  simp [fieldsOf, Table.mem_def]

/-- The entries of an area are its categories. -/
theorem list_categories (c : Contents) (area : Area) :
    c.list (.categories area) = (c.categoriesOf area).map Category.member :=
  Listing.arrange_map _

/-- The entries of a category are its fields. -/
theorem list_fields (c : Contents) (id : Id) :
    c.list (.fields id) = (c.fieldsOf id).map Field.member :=
  Listing.arrange_map _

theorem mem_list_categories {area : Area} :
    m ∈ c.list (.categories area) ↔ ∃ row ∈ c.categories, row.area = area ∧ row.member = m := by
  simp only [list_categories, List.mem_map, mem_categoriesOf, and_assoc]

theorem mem_list_fields {id : Id} :
    m ∈ c.list (.fields id) ↔ ∃ row ∈ c.fields, row.categoryid = id ∧ row.member = m := by
  simp only [list_fields, List.mem_map, mem_fieldsOf, and_assoc]

/-- The rows of a table have different numbers, so the categories of an area are strictly in order. -/
theorem pairwise_categoriesOf (c : Contents) (area : Area) :
    (c.categoriesOf area).Pairwise fun a b => a.member.Precedes b.member :=
  Listing.pairwise_arrange (c.categories.pairwise_filter_key_ne _)

theorem pairwise_fieldsOf (c : Contents) (id : Id) :
    (c.fieldsOf id).Pairwise fun a b => a.member.Precedes b.member :=
  Listing.pairwise_arrange (c.fields.pairwise_filter_key_ne _)

/-- Each listing is strictly in order. -/
theorem pairwise_list (c : Contents) (scope : Scope) :
    (c.list scope).Pairwise Member.Precedes := by
  cases scope with
  | categories area =>
    rw [list_categories]
    exact List.pairwise_map.mpr (c.pairwise_categoriesOf area)
  | fields id =>
    rw [list_fields]
    exact List.pairwise_map.mpr (c.pairwise_fieldsOf id)

theorem nodup_list (c : Contents) (scope : Scope) : (c.list scope).Nodup :=
  (c.pairwise_list scope).imp Member.Precedes.ne

/-- A listing is determined by its members. -/
theorem list_eq {l : List Member} (hl : l.Pairwise Member.Precedes)
    (h : ∀ m, m ∈ c.list scope ↔ m ∈ l) : c.list scope = l :=
  Listing.eq_of_mem_iff (c.pairwise_list scope) hl h

theorem list_congr {c' : Contents} (h : ∀ m, m ∈ c'.list scope ↔ m ∈ c.list scope) :
    c'.list scope = c.list scope :=
  list_eq (c.pairwise_list scope) h

/-- An entry stands in one listing only, and only once. -/
theorem list_unique (hm : m ∈ c.list scope) (hn : n ∈ c.list scope')
    (hk : scope.kind = scope'.kind) (hid : m.id = n.id) : scope = scope' ∧ m = n := by
  -- Entries of one kind and number come from one row, which determines its listing.
  cases scope with
  | categories area =>
    cases scope' with
    | fields id => cases hk
    | categories area' =>
      obtain ⟨row, hrow, rfl, rfl⟩ := mem_list_categories.mp hm
      obtain ⟨row', hrow', rfl, rfl⟩ := mem_list_categories.mp hn
      obtain rfl := Table.eq_of_key_eq hrow hrow' hid
      exact ⟨rfl, rfl⟩
  | fields id =>
    cases scope' with
    | categories area => cases hk
    | fields id' =>
      obtain ⟨row, hrow, rfl, rfl⟩ := mem_list_fields.mp hm
      obtain ⟨row', hrow', rfl, rfl⟩ := mem_list_fields.mp hn
      obtain rfl := Table.eq_of_key_eq hrow hrow' hid
      exact ⟨rfl, rfl⟩

theorem nodup_ids_list (c : Contents) (scope : Scope) :
    ((c.list scope).map Member.id).Nodup := by
  refine List.pairwise_map.mpr ((c.pairwise_list scope).imp_of_mem fun hm hn h hid => ?_)
  exact h.ne (list_unique hm hn rfl hid).2

/-- A listing with one entry more than another one, but for that entry. -/
theorem filter_list_of_mem_iff {l : List Member} (hl : l.Pairwise Member.Precedes)
    (hm : ∀ n ∈ l, n.id ≠ m.id) (h : ∀ n, n ∈ c.list scope ↔ n = m ∨ n ∈ l) :
    ((c.list scope).filter fun n => n.id != m.id) = l := by
  refine Listing.eq_of_mem_iff ((c.pairwise_list scope).filter _) hl fun n => ?_
  rw [List.mem_filter, h, bne_iff_ne]
  constructor
  · rintro ⟨rfl | hn, hne⟩
    · exact absurd rfl hne
    · exact hn
  · intro hn
    exact ⟨.inr hn, hm n hn⟩

/-- A listing with one entry more than another one is a rearrangement of that one with the entry
behind. -/
theorem perm_list_of_mem_iff {l : List Member} (hl : l.Nodup) (hm : m ∉ l)
    (h : ∀ n, n ∈ c.list scope ↔ n = m ∨ n ∈ l) : (l ++ [m]).Perm (c.list scope) := by
  -- Neither list repeats an entry, so the same members are enough.
  refine (List.perm_append_singleton m l).trans ?_
  have hl' := List.nodup_cons.mpr ⟨hm, hl⟩
  refine (List.perm_ext_iff_of_nodup hl' (c.nodup_list scope)).mpr fun n => ?_
  rw [List.mem_cons, h]

end Contents

/-! ## Rows at positions -/

/-- A category at a position, stamped with the time if it had to move. -/
def Category.moveTo (now position : Int) (row : Category) : Category :=
  if row.sortorder = position then row
  else { row with sortorder := position, timemodified := now }

/-- A field at a position, stamped with the time if it had to move. -/
def Field.moveTo (now position : Int) (row : Field) : Field :=
  if row.sortorder = position then row
  else { row with sortorder := position, timemodified := now }

section MoveTo

variable (now position : Int)

@[simp] theorem Category.member_moveTo (row : Category) :
    (row.moveTo now position).member = ⟨row.id, position⟩ := by
  unfold Category.moveTo
  split
  · next h => rw [Category.member, h]
  · rfl

@[simp] theorem Field.member_moveTo (row : Field) :
    (row.moveTo now position).member = ⟨row.id, position⟩ := by
  unfold Field.moveTo
  split
  · next h => rw [Field.member, h]
  · rfl

theorem Category.moveTo_sortorder (row : Category) : row.moveTo now row.member.sortorder = row :=
  if_pos rfl

theorem Field.moveTo_sortorder (row : Field) : row.moveTo now row.member.sortorder = row :=
  if_pos rfl

@[simp] theorem Category.id_moveTo (row : Category) : (row.moveTo now position).id = row.id :=
  congrArg Member.id (row.member_moveTo now position)

@[simp] theorem Field.id_moveTo (row : Field) : (row.moveTo now position).id = row.id :=
  congrArg Member.id (row.member_moveTo now position)

@[simp] theorem Category.area_moveTo (row : Category) :
    (row.moveTo now position).area = row.area := by
  unfold Category.moveTo
  split <;> rfl

@[simp] theorem Field.categoryid_moveTo (row : Field) :
    (row.moveTo now position).categoryid = row.categoryid := by
  unfold Field.moveTo
  split <;> rfl

end MoveTo

namespace Contents

/-- The contents with every row of a kind at the position it is assigned. -/
def moveAll (now : Int) (kind : Kind) (position : Member → Int) (c : Contents) : Contents :=
  match kind with
  | .category =>
    { c with
      categories := c.categories.mapRows (fun row => row.moveTo now (position row.member))
        (fun row => row.id_moveTo now _) }
  | .field =>
    { c with
      fields := c.fields.mapRows (fun row => row.moveTo now (position row.member))
        (fun row => row.id_moveTo now _) }

/-- The contents after the entries of an order have been given positions that count up from
`rank`. -/
def settleFrom (now : Int) (kind : Kind) (rank : Int) (order : List Member) (c : Contents) :
    Contents :=
  c.moveAll now kind (Listing.rankIn rank order)

/-- The contents after the entries of an order have been given their ranks as positions. -/
def settle (now : Int) (kind : Kind) (order : List Member) (c : Contents) : Contents :=
  c.settleFrom now kind 0 order

variable {c : Contents} {scope : Scope} {kind : Kind} {now : Int} {position : Member → Int}
  {m : Member} {order : List Member}

theorem mem_list_moveAll :
    m ∈ (c.moveAll now scope.kind position).list scope ↔
      ∃ n ∈ c.list scope, m = ⟨n.id, position n⟩ := by
  -- A row that moves stays in its listing: it keeps its area or its category.
  cases scope with
  | categories area =>
    simp only [mem_list_categories, Scope.kind, moveAll, Table.mem_mapRows]
    constructor
    · rintro ⟨_, ⟨row, hrow, rfl⟩, rfl, rfl⟩
      exact ⟨row.member, ⟨row, hrow, by simp, rfl⟩, row.member_moveTo now _⟩
    · rintro ⟨_, ⟨row, hrow, rfl, rfl⟩, rfl⟩
      exact ⟨_, ⟨row, hrow, rfl⟩, by simp, row.member_moveTo now _⟩
  | fields id =>
    simp only [mem_list_fields, Scope.kind, moveAll, Table.mem_mapRows]
    constructor
    · rintro ⟨_, ⟨row, hrow, rfl⟩, rfl, rfl⟩
      exact ⟨row.member, ⟨row, hrow, by simp, rfl⟩, row.member_moveTo now _⟩
    · rintro ⟨_, ⟨row, hrow, rfl, rfl⟩, rfl⟩
      exact ⟨_, ⟨row, hrow, rfl⟩, by simp, row.member_moveTo now _⟩

theorem list_moveAll_of_kind_ne (h : scope.kind ≠ kind) :
    (c.moveAll now kind position).list scope = c.list scope := by
  cases scope <;> cases kind <;> first | rfl | exact absurd rfl h

/-- A listing whose entries are all assigned the positions they have does not change. -/
theorem list_moveAll_of_forall (h : ∀ m ∈ c.list scope, position m = m.sortorder) :
    (c.moveAll now kind position).list scope = c.list scope := by
  by_cases hk : scope.kind = kind
  · -- The entries stay what they are, and they determine the listing.
    subst hk
    refine list_congr fun m => mem_list_moveAll.trans ⟨?_, fun hm => ⟨m, hm, ?_⟩⟩
    · rintro ⟨n, hn, rfl⟩
      rw [h n hn]
      exact hn
    · rw [h m hm]
  · exact list_moveAll_of_kind_ne hk

/-- A settled listing stands in the settled order, at its ranks. -/
theorem list_settle (now : Int) (h : order.Perm (c.list scope)) :
    (c.settle now scope.kind order).list scope = Listing.ranked order := by
  -- The entries at their ranks are in order, and they are the members of the listing.
  have hnodup := Listing.nodup_ids_of_perm h (c.nodup_ids_list scope)
  refine list_eq (Listing.pairwise_ranked order) fun m => ?_
  rw [settle, settleFrom, mem_list_moveAll, Listing.mem_ranked_iff hnodup]
  exact exists_congr fun n => and_congr_left fun _ => h.mem_iff.symm

/-- Settling an order leaves the listings alone that its entries do not stand in. -/
theorem list_settle_of_forall_ne (h : ∀ m ∈ c.list scope, m.id ∉ order.map Member.id) :
    (c.settle now kind order).list scope = c.list scope :=
  list_moveAll_of_forall fun m hm => Listing.rankIn_of_not_mem (h m hm)

/-- Settling one listing leaves the others as they are. -/
theorem list_settle_of_ne {scope' : Scope} (h : order.Perm (c.list scope)) (hne : scope' ≠ scope) :
    (c.settle now scope.kind order).list scope' = c.list scope' := by
  by_cases hk : scope'.kind = scope.kind
  · -- An entry in both listings would make them one.
    refine list_settle_of_forall_ne fun m hm hid => hne ?_
    obtain ⟨n, hn, hid⟩ := List.mem_map.mp hid
    exact (list_unique hm (h.mem_iff.mp hn) hk hid.symm).1
  · exact list_moveAll_of_kind_ne hk

/-! ## Rows of settled contents -/

theorem category?_settle_category (id : Id) :
    (c.settle now .category order).category? id =
      (c.category? id).map fun row => row.moveTo now (Listing.rankIn 0 order row.member) :=
  Table.find?_mapRows c.categories _ (fun row => row.id_moveTo now _) id

theorem field?_settle_field (id : Id) :
    (c.settle now .field order).field? id =
      (c.field? id).map fun row => row.moveTo now (Listing.rankIn 0 order row.member) :=
  Table.find?_mapRows c.fields _ (fun row => row.id_moveTo now _) id

end Contents

end FieldCatalog
