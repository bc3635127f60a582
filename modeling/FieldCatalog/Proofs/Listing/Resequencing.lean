import FieldCatalog.Listing.Resequence
import FieldCatalog.Proofs.Store.Running
import FieldCatalog.Proofs.Store.Settlement
import Mathlib.Logic.Equiv.Basic
import Mathlib.Data.List.Nodup

/-!
# What the operations on listings do

Each operation works out an order and settles it. Entries that are listed exist, so none of the
writes can miss its row, and the only failures are those of a missing entry or a bad target.

## Main definitions

* `Contents.member?`: an entry by its kind and number
* `Contents.rehome`: the contents with a field moved to another category
* `Listing.misplacedFrom`: how many entries an order moves
* `Listing.exchanged`: an order after an entry has changed places with its neighbour
* `Listing.dragged`: an order after an entry has been put before another

## Main results

* `Contents.settleFrom_append`, `Contents.settleFrom_eq_self`: settling an order in parts
* `Listing.on_writeRanks`: writing the ranks of entries settles them
* `Listing.on_append`, `Listing.on_renumber`, `Listing.on_swapAdjacent`, `Listing.on_moveBefore`,
  `Listing.on_moveAcross`: the operations
-/

namespace FieldCatalog

/-- A field in another category, at the position it has. -/
def Field.rehome (categoryid : Id) (now : Int) (row : Field) : Field :=
  { row with categoryid, timemodified := now }

theorem Field.id_rehome (categoryid : Id) (now : Int) (row : Field) :
    (row.rehome categoryid now).id = row.id :=
  rfl

/-! ## Rows of either kind

The arguments about rows that move are the same for categories and fields: `member` is the entry of
a row, and `moveTo` puts a row at a position. -/

section Rows

variable {α : Type} {key : α → Int} {member : α → Member} {moveTo : Int → α → α} {row : α}

/-- Two moves of a row are one when one of them leaves the row where it is. -/
theorem moved_twice {f g h : Member → Int}
    (hmember : ∀ position row, member (moveTo position row) = ⟨(member row).id, position⟩)
    (hself : ∀ row, moveTo (member row).sortorder row = row)
    (hfg : (f (member row) = (member row).sortorder ∧ h (member row) = g (member row)) ∨
      (g ⟨(member row).id, f (member row)⟩ = f (member row) ∧ h (member row) = f (member row))) :
    moveTo (g (member (moveTo (f (member row)) row))) (moveTo (f (member row)) row) =
      moveTo (h (member row)) row := by
  rcases hfg with ⟨hf, hh⟩ | ⟨hg, hh⟩
  · -- The first move does nothing.
    rw [hf, hself, hh]
  · -- The second one finds the row where it would put it.
    have hagain := hself (moveTo (f (member row)) row)
    rw [hmember] at hagain
    rw [hmember, hg, hh]
    exact hagain

/-- Changing one row so that it is at a position is settling its entry there. -/
theorem modified_once {t : Table α key} {position : Int} {place : α → α}
    (hid : ∀ row, (member row).id = key row) (hself : ∀ row, moveTo (member row).sortorder row = row)
    (hrow : row ∈ t) (hplace : place row = moveTo position row) (hp : ∀ row, key (place row) = key row)
    (hm : ∀ other, key (moveTo (Listing.rankIn position [member row] (member other)) other) =
      key other) :
    t.modify (member row).id place hp =
      t.mapRows (fun other => moveTo (Listing.rankIn position [member row] (member other)) other)
        hm := by
  rw [Table.modify_eq_mapRows]
  refine Table.mapRows_congr fun other hother => ?_
  by_cases hk : key other = (member row).id
  · obtain rfl : row = other := Table.eq_of_key_eq hrow hother ((hid row).symm.trans hk.symm)
    have hrank : Listing.rankIn position [member row] (member row) = position := if_pos rfl
    rw [if_pos hk, hrank, hplace]
  · have hrank : Listing.rankIn position [member row] (member other) = (member other).sortorder :=
      if_neg fun e => hk ((hid other).symm.trans e.symm)
    rw [if_neg hk, hrank, hself]

end Rows

namespace Contents

/-- The entry of a kind with the given number. -/
def member? (c : Contents) : Kind → Id → Option Member
  | .category, id => (c.category? id).map Category.member
  | .field, id => (c.field? id).map Field.member

variable {c : Contents} {kind : Kind} {scope : Scope} {now : Int} {m : Member}
  {f g h : Member → Int}

/-- Listed entries exist. -/
theorem member?_of_mem_list (hm : m ∈ c.list scope) : c.member? scope.kind m.id = some m := by
  cases scope with
  | categories area =>
    obtain ⟨row, hrow, -, rfl⟩ := mem_list_categories.mp hm
    exact Option.map_eq_some_iff.mpr ⟨row, category?_eq_some_iff.mpr ⟨hrow, rfl⟩, rfl⟩
  | fields id =>
    obtain ⟨row, hrow, -, rfl⟩ := mem_list_fields.mp hm
    exact Option.map_eq_some_iff.mpr ⟨row, field?_eq_some_iff.mpr ⟨hrow, rfl⟩, rfl⟩

theorem member?_moveAll (id : Id) :
    (c.moveAll now kind f).member? kind id =
      (c.member? kind id).map fun m => ⟨m.id, f m⟩ := by
  cases kind with
  | category =>
    simp only [member?, moveAll, category?, Table.find?_mapRows, Option.map_map]
    exact congrArg (Option.map · _) (funext fun row => row.member_moveTo now _)
  | field =>
    simp only [member?, moveAll, field?, Table.find?_mapRows, Option.map_map]
    exact congrArg (Option.map · _) (funext fun row => row.member_moveTo now _)

/-- Two moves are one when no entry is moved by both. -/
theorem moveAll_moveAll
    (hfg : ∀ m, c.member? kind m.id = some m →
      (f m = m.sortorder ∧ h m = g m) ∨ (g ⟨m.id, f m⟩ = f m ∧ h m = f m)) :
    (c.moveAll now kind f).moveAll now kind g = c.moveAll now kind h := by
  -- In either table the rows are compared one by one.
  cases kind with
  | category =>
    simp only [moveAll, Table.mapRows_mapRows]
    refine congrArg (Contents.mk · _) (Table.mapRows_congr fun row hrow => ?_)
    apply moved_twice (Category.member_moveTo now) (Category.moveTo_sortorder now)
    exact hfg row.member (congrArg (Option.map _) (category?_eq_some_iff.mpr ⟨hrow, rfl⟩))
  | field =>
    simp only [moveAll, Table.mapRows_mapRows]
    refine congrArg (Contents.mk _) (Table.mapRows_congr fun row hrow => ?_)
    apply moved_twice (Field.member_moveTo now) (Field.moveTo_sortorder now)
    exact hfg row.member (congrArg (Option.map _) (field?_eq_some_iff.mpr ⟨hrow, rfl⟩))

/-- Moving every entry to where it is changes nothing. -/
theorem moveAll_eq_self (hf : ∀ m, c.member? kind m.id = some m → f m = m.sortorder) :
    c.moveAll now kind f = c := by
  cases kind with
  | category =>
    refine congrArg (Contents.mk · _) (Table.mapRows_eq_self fun row hrow => ?_)
    have hm := hf row.member (congrArg (Option.map _) (category?_eq_some_iff.mpr ⟨hrow, rfl⟩))
    rw [hm]
    exact row.moveTo_sortorder now
  | field =>
    refine congrArg (Contents.mk _) (Table.mapRows_eq_self fun row hrow => ?_)
    have hm := hf row.member (congrArg (Option.map _) (field?_eq_some_iff.mpr ⟨hrow, rfl⟩))
    rw [hm]
    exact row.moveTo_sortorder now

/-- The contents with a field moved to another category, at the position it has. -/
def rehome (id categoryid : Id) (now : Int) (c : Contents) : Contents :=
  { c with
    fields := c.fields.modify id (Field.rehome categoryid now) (Field.id_rehome categoryid now) }

theorem mem_list_rehome {id categoryid home : Id} {field : Field} (hf : c.field? id = some field) :
    m ∈ (c.rehome id categoryid now).list (.fields home) ↔
      (m ∈ c.list (.fields home) ∧ m.id ≠ id) ∨ (home = categoryid ∧ m = field.member) := by
  -- The number belongs to one field only, so no second row is affected.
  obtain ⟨hfield, rfl⟩ := field?_eq_some_iff.mp hf
  simp only [mem_list_fields, rehome, Table.mem_modify]
  constructor
  · rintro ⟨_, ⟨hrow, hne⟩ | ⟨row, hrow, hid, rfl⟩, rfl, rfl⟩
    · exact .inl ⟨⟨_, hrow, rfl, rfl⟩, hne⟩
    · obtain rfl := Table.eq_of_key_eq hrow hfield hid
      exact .inr ⟨rfl, rfl⟩
  · rintro (⟨⟨row, hrow, rfl, rfl⟩, hne⟩ | ⟨rfl, rfl⟩)
    · exact ⟨row, .inl ⟨hrow, hne⟩, rfl, rfl⟩
    · exact ⟨_, .inr ⟨field, hfield, rfl, rfl⟩, rfl, rfl⟩

/-! ## Settling in parts -/

variable {rank : Int} {order : List Member}

/-- Settling an order is settling its front and then its rest. -/
theorem settleFrom_append (c : Contents) (order order' : List Member)
    (hd : ∀ m ∈ order, m.id ∉ order'.map Member.id) :
    (c.settleFrom now kind rank order).settleFrom now kind (rank + order.length) order' =
      c.settleFrom now kind rank (order ++ order') := by
  -- An entry of the front is not moved by the rest, and any other entry not by the front.
  refine moveAll_moveAll fun m _ => ?_
  by_cases hm : m.id ∈ order.map Member.id
  · obtain ⟨n, hn, hid⟩ := List.mem_map.mp hm
    refine .inr ⟨Listing.rankIn_of_not_mem ?_, Listing.rankIn_append_of_mem hm⟩
    exact hid ▸ hd n hn
  · exact .inl ⟨Listing.rankIn_of_not_mem hm, Listing.rankIn_append_of_not_mem hm⟩

/-- Settling entries where they are changes nothing. -/
theorem settleFrom_eq_self (hs : ∀ m ∈ order, c.member? kind m.id = some m)
    (hn : (order.map Member.id).Nodup) (hc : Listing.isContiguousFrom rank order = true) :
    c.settleFrom now kind rank order = c := by
  refine moveAll_eq_self fun m hm => ?_
  by_cases hmem : m.id ∈ order.map Member.id
  · obtain ⟨n, hn', hid⟩ := List.mem_map.mp hmem
    obtain rfl : n = m := Option.some.inj ((hs n hn').symm.trans (hid ▸ hm))
    exact Listing.rankIn_of_mem hc hn hn'
  · exact Listing.rankIn_of_not_mem hmem

/-- Settling a contiguous listing in the order it has changes nothing. -/
theorem settle_eq_self (now : Int) (hc : Listing.isContiguous (c.list scope) = true) :
    c.settle now scope.kind (c.list scope) = c :=
  settleFrom_eq_self (fun _ hm => member?_of_mem_list hm) (c.nodup_ids_list scope) hc

/-- An entry that is not in an order stays where it is when the order is settled. -/
theorem member?_settleFrom_of_not_mem {m : Member} (hm : c.member? kind m.id = some m)
    (h : m.id ∉ order.map Member.id) :
    (c.settleFrom now kind rank order).member? kind m.id = some m := by
  rw [settleFrom, member?_moveAll, hm, Option.map_some, Listing.rankIn_of_not_mem h]

theorem modify_category_eq_settleFrom {m : Member} {row : Category} {position : Int}
    (hrow : c.category? m.id = some row) (hm : row.member = m) (hne : m.sortorder ≠ position) :
    { c with
      categories := c.categories.modify m.id
        (fun row => { row with sortorder := position, timemodified := now }) fun _ => rfl } =
      c.settleFrom now .category position [m] := by
  subst hm
  have hmoved : ({ row with sortorder := position, timemodified := now } : Category) =
      row.moveTo now position := (if_neg hne).symm
  exact congrArg (Contents.mk · _) (modified_once (fun _ => rfl) (Category.moveTo_sortorder now)
    (category?_eq_some_iff.mp hrow).1 hmoved _ _)

theorem modify_field_eq_settleFrom {m : Member} {row : Field} {position : Int}
    (hrow : c.field? m.id = some row) (hm : row.member = m) (hne : m.sortorder ≠ position) :
    { c with
      fields := c.fields.modify m.id
        (fun row => { row with sortorder := position, timemodified := now }) fun _ => rfl } =
      c.settleFrom now .field position [m] := by
  subst hm
  have hmoved : ({ row with sortorder := position, timemodified := now } : Field) =
      row.moveTo now position := (if_neg hne).symm
  exact congrArg (Contents.mk _) (modified_once (fun _ => rfl) (Field.moveTo_sortorder now)
    (field?_eq_some_iff.mp hrow).1 hmoved _ _)

/-- Entries that are at their ranks after an order has been settled. -/
theorem member?_settle_ranked (hs : ∀ m ∈ order, c.member? kind m.id = some m)
    (hn : (order.map Member.id).Nodup) (hm : m ∈ Listing.ranked order) :
    (c.settle now kind order).member? kind m.id = some m := by
  obtain ⟨n, hn', rfl⟩ := (Listing.mem_ranked_iff hn).mp hm
  rw [settle, settleFrom, member?_moveAll, hs n hn', Option.map_some]

end Contents

namespace Listing

open Statement

variable {c : Contents} {now : Int} {kind : Kind} {scope : Scope} {id : Id}

/-! ## Writing ranks -/

/-- How many entries of an order are not at the positions that count up from `rank`. -/
def misplacedFrom (rank : Int) : List Member → Nat
  | [] => 0
  | m :: ms => (if m.sortorder = rank then 0 else 1) + misplacedFrom (rank + 1) ms

/-- How many entries of an order are not at their ranks. -/
def misplaced (order : List Member) : Nat :=
  misplacedFrom 0 order

/-- Placing an entry elsewhere settles it there. -/
theorem on_place {m : Member} {position : Int} (hm : c.member? kind m.id = some m)
    (hne : m.sortorder ≠ position) :
    (place now kind m.id position).on c = (.ok (), c.settleFrom now kind position [m]) := by
  cases kind with
  | category =>
    obtain ⟨row, hrow, hmem⟩ := Option.map_eq_some_iff.mp hm
    simp only [place, on_bind, on_setSortorder_category, hrow, Option.isSome_some, if_true, on_pure,
      Contents.modify_category_eq_settleFrom hrow hmem hne]
  | field =>
    obtain ⟨row, hrow, hmem⟩ := Option.map_eq_some_iff.mp hm
    simp only [place, on_bind, on_setSortorder_field, hrow, Option.isSome_some, if_true, on_pure,
      Contents.modify_field_eq_settleFrom hrow hmem hne]

/-- Writing the ranks of entries that exist settles them. -/
theorem on_writeRanksFrom {rank : Int} {members : List Member}
    (hs : ∀ m ∈ members, c.member? kind m.id = some m) (hn : (members.map Member.id).Nodup) :
    (writeRanksFrom now kind rank members).on c =
      (.ok (misplacedFrom rank members), c.settleFrom now kind rank members) := by
  -- Induction on the entries, for all contents: the first write leaves contents in which the other
  -- entries are still where they were, since none of them has the number of the first.
  induction members generalizing rank c with
  | nil => exact Prod.ext rfl (Contents.settleFrom_eq_self (by simp) hn rfl).symm
  | cons m ms ih =>
    rw [List.map_cons, List.nodup_cons] at hn
    have hm := hs m List.mem_cons_self
    have hcons : (c.settleFrom now kind rank [m]).settleFrom now kind (rank + 1) ms =
        c.settleFrom now kind rank (m :: ms) :=
      c.settleFrom_append [m] ms (by simpa using hn.1)
    rw [writeRanksFrom, misplacedFrom]
    split
    · next hr =>
      -- The first entry is at its rank and is not written.
      have hself : c.settleFrom now kind rank [m] = c := by
        refine Contents.settleFrom_eq_self (by simpa using hm) (by simp) ?_
        simp [isContiguousFrom, hr]
      rw [ih (fun n hmem => hs n (.tail _ hmem)) hn.2, ← hcons, hself, Nat.zero_add]
    · next hr =>
      -- The first entry is placed at its rank.
      have hs' : ∀ n ∈ ms, (c.settleFrom now kind rank [m]).member? kind n.id = some n := by
        intro n hmem
        refine Contents.member?_settleFrom_of_not_mem (hs n (.tail _ hmem)) ?_
        intro h
        exact hn.1 (List.mem_singleton.mp h ▸ List.mem_map_of_mem hmem)
      simp only [on_bind, on_place hm hr, ih hs' hn.2, hcons, on_pure, Nat.add_comm 1]

theorem on_writeRanks {members : List Member}
    (hs : ∀ m ∈ members, c.member? kind m.id = some m) (hn : (members.map Member.id).Nodup) :
    (writeRanks now kind members).on c =
      (.ok (misplaced members), c.settle now kind members) :=
  on_writeRanksFrom hs hn

/-- Healing settles the order it is given and answers it at its ranks. -/
theorem on_heal {members : List Member} (hs : ∀ m ∈ members, c.member? kind m.id = some m)
    (hn : (members.map Member.id).Nodup) :
    (heal now kind members).on c = (.ok (ranked members), c.settle now kind members) := by
  unfold heal
  split
  · next hc =>
    -- A contiguous listing is at its ranks already.
    rw [ranked_eq_self hc, Contents.settle, Contents.settleFrom_eq_self hs hn hc]
    rfl
  · simp only [on_bind, on_writeRanks hs hn, on_pure]

/-! ## The operations -/

/-- A new entry is settled behind the others of its listing. -/
theorem on_append (now : Int) {m : Member} (hm : m ∈ c.list scope)
    (hne : m.sortorder ≠ ((c.list scope).filter fun n => n.id != m.id).length) :
    (append now scope m.id).on c =
      (.ok ((c.list scope).filter fun n => n.id != m.id).length,
        c.settle now scope.kind (((c.list scope).filter fun n => n.id != m.id) ++ [m])) := by
  have hnot : ∀ n ∈ (c.list scope).filter (fun n => n.id != m.id), n.id ≠ m.id := fun n h =>
    bne_iff_ne.mp (List.mem_filter.mp h).2
  generalize hl : (c.list scope).filter (fun n => n.id != m.id) = siblings at *
  have hsub : siblings.Sublist (c.list scope) := hl ▸ List.filter_sublist
  have hs : ∀ n ∈ siblings, c.member? scope.kind n.id = some n := fun n h =>
    Contents.member?_of_mem_list (hsub.subset h)
  have hn : (siblings.map Member.id).Nodup := (hsub.map _).nodup (c.nodup_ids_list scope)
  -- The new entry is not among the others, so it is still where it was when they are settled.
  have hm' : (c.settle now scope.kind siblings).member? scope.kind m.id = some m := by
    refine Contents.member?_settleFrom_of_not_mem (Contents.member?_of_mem_list hm) fun h => ?_
    obtain ⟨n, hmem, hid⟩ := List.mem_map.mp h
    exact hnot n hmem hid
  -- Placing it behind them is settling all of them together.
  have happ : (c.settle now scope.kind siblings).settleFrom now scope.kind siblings.length [m] =
      c.settle now scope.kind (siblings ++ [m]) := by
    have h0 : (siblings.length : Int) = 0 + siblings.length := (Int.zero_add _).symm
    rw [h0]
    exact c.settleFrom_append siblings [m] (by simpa using hnot)
  simp only [append, on_bind, on_query, hl, on_heal hs hn, ranked, length_rankedFrom,
    on_place hm' hne, happ, on_pure]

/-- Renumbering settles the order of the listing. -/
theorem on_renumber :
    (renumber now scope).on c =
      (.ok (misplaced (c.list scope)), c.settle now scope.kind (c.list scope)) := by
  simp only [renumber, on_bind, on_query]
  exact on_writeRanks (fun m hm => Contents.member?_of_mem_list hm) (c.nodup_ids_list scope)

/-- An order after the entry `id` has changed places with its neighbour, if it has one. -/
def exchanged (members : List Member) (id : Id) (direction : Direction) : Option (List Member) :=
  (members.findIdx? fun m => m.id == id).bind fun index =>
    (neighbours? members index direction).map fun (this, other) =>
      members.map (Equiv.swap this other)

theorem neighbours?_eq_some {members : List Member} {index : Nat} {direction : Direction}
    {this other : Member} (h : neighbours? members index direction = some (this, other)) :
    members[index]? = some this ∧
      ∃ next : Nat, (next : Int) = index + direction.offset ∧ members[next]? = some other := by
  unfold neighbours? at h
  split at h
  · next this' next hthis hnext =>
    obtain ⟨other', hother, he⟩ := Option.map_eq_some_iff.mp h
    obtain ⟨rfl, rfl⟩ := Prod.mk.inj he
    exact ⟨hthis, next, hnext.symm, hother⟩
  · cases h

/-- An entry and its neighbour are different entries of the listing. -/
theorem neighbours_ne {members : List Member} {index : Nat} {direction : Direction}
    {this other : Member} (hn : members.Nodup)
    (h : neighbours? members index direction = some (this, other)) :
    this ∈ members ∧ other ∈ members ∧ this ≠ other := by
  obtain ⟨hthis, next, hnext, hother⟩ := neighbours?_eq_some h
  refine ⟨List.mem_of_getElem? hthis, List.mem_of_getElem? hother, ?_⟩
  -- Entries that are equal stand in one place, but the places differ by one.
  rintro rfl
  obtain ⟨hi, hgi⟩ := List.getElem?_eq_some_iff.mp hthis
  obtain ⟨hj, hgj⟩ := List.getElem?_eq_some_iff.mp hother
  have hij : index = next := hn.getElem_inj_iff.mp (hgi.trans hgj.symm)
  cases direction <;> simp only [Direction.offset] at hnext <;> omega

theorem perm_map_swap {members : List Member} {this other : Member} (hn : members.Nodup)
    (ht : this ∈ members) (ho : other ∈ members) :
    (members.map (Equiv.swap this other)).Perm members := by
  -- A swap of two members maps the members to themselves, and is its own inverse.
  have hmap : (members.map (Equiv.swap this other)).Nodup :=
    hn.map (Equiv.swap this other).injective
  refine (List.perm_ext_iff_of_nodup hmap hn).mpr fun m => ?_
  have hmem : ∀ n ∈ members, Equiv.swap this other n ∈ members := by
    intro n hn
    rw [Equiv.swap_apply_def]
    split
    · exact ho
    · split
      · exact ht
      · exact hn
  constructor
  · intro hm
    obtain ⟨n, hn, rfl⟩ := List.mem_map.mp hm
    exact hmem n hn
  · intro hm
    exact List.mem_map.mpr ⟨_, hmem m hm, Equiv.swap_apply_self this other m⟩

theorem perm_of_exchanged {members order : List Member} {direction : Direction}
    (hn : members.Nodup) (ho : exchanged members id direction = some order) :
    order.Perm members := by
  obtain ⟨index, -, hmap⟩ := Option.bind_eq_some_iff.mp ho
  obtain ⟨⟨this, other⟩, hnb, rfl⟩ := Option.map_eq_some_iff.mp hmap
  obtain ⟨ht, ho, -⟩ := neighbours_ne hn hnb
  exact perm_map_swap hn ht ho

/-- In a contiguous listing different entries have different positions. -/
theorem sortorder_ne {members : List Member} (hc : isContiguous members = true) {m n : Member}
    (hm : m ∈ members) (hn : n ∈ members) (hne : m ≠ n) : m.sortorder ≠ n.sortorder := by
  have hnodup : (members.map Member.sortorder).Nodup := by
    rw [isContiguous_iff.mp hc]
    exact List.nodup_range.map fun a b h => Int.ofNat.inj h
  exact fun he => hne (List.inj_on_of_nodup_map hnodup hm hn he)

/-- Exchanging the positions of two entries of a contiguous listing settles the exchanged order. -/
theorem settleFrom_swap {members : List Member} {this other : Member}
    (hs : ∀ m ∈ members, c.member? kind m.id = some m) (hn : (members.map Member.id).Nodup)
    (hc : isContiguous members = true) (ht : this ∈ members) (ho : other ∈ members)
    (hne : this.id ≠ other.id) :
    (c.settleFrom now kind other.sortorder [this]).settleFrom now kind this.sortorder [other] =
      c.settle now kind (members.map (Equiv.swap this other)) := by
  -- Entry by entry: the first write moves `this`, the second one `other`, and every other entry has
  -- its place in the exchanged order already.
  have hperm := perm_map_swap hn.of_map ht ho
  have hn' := nodup_ids_of_perm hperm hn
  refine Contents.moveAll_moveAll fun m hm => ?_
  by_cases hthis : m.id = this.id
  · have hf : rankIn other.sortorder [this] m = other.sortorder := if_pos hthis.symm
    have hid : m.id = (Equiv.swap this other other).id := by rw [Equiv.swap_apply_right, hthis]
    refine .inr ⟨rankIn_of_not_mem ?_, (rankIn_map hc hn' ho hid).trans hf.symm⟩
    simpa using fun e : m.id = other.id => hne (hthis.symm.trans e)
  · have hf : rankIn other.sortorder [this] m = m.sortorder := if_neg (Ne.symm hthis)
    refine .inl ⟨hf, ?_⟩
    by_cases hother : m.id = other.id
    · have hid : m.id = (Equiv.swap this other this).id := by rw [Equiv.swap_apply_left, hother]
      exact (rankIn_map hc hn' ht hid).trans (if_pos hother.symm).symm
    · have hg : rankIn this.sortorder [other] m = m.sortorder := if_neg (Ne.symm hother)
      rw [hg]
      by_cases hmem : m.id ∈ members.map Member.id
      · obtain ⟨n, hn₁, hid⟩ := List.mem_map.mp hmem
        obtain rfl : n = m := Option.some.inj ((hs n hn₁).symm.trans (hid ▸ hm))
        have hswap : Equiv.swap this other n = n :=
          Equiv.swap_apply_of_ne_of_ne (fun e => hthis (e ▸ rfl)) fun e => hother (e ▸ rfl)
        exact rankIn_map hc hn' hn₁ (congrArg Member.id hswap).symm
      · exact rankIn_of_not_mem fun h => hmem ((hperm.map _).mem_iff.mp h)

/-- An arrow settles the listing, and then the order in which the entry and its neighbour have
changed places, if there is a neighbour. -/
theorem on_swapAdjacent {direction : Direction} (hid : id ∈ (c.list scope).map Member.id) :
    (swapAdjacent now scope id direction).on c =
      match exchanged (ranked (c.list scope)) id direction with
      | none => (.ok false, c.settle now scope.kind (c.list scope))
      | some order => (.ok true,
          (c.settle now scope.kind (c.list scope)).settle now scope.kind order) := by
  have hs : ∀ m ∈ c.list scope, c.member? scope.kind m.id = some m := fun m hm =>
    Contents.member?_of_mem_list hm
  have hn := c.nodup_ids_list scope
  have hs' : ∀ m ∈ ranked (c.list scope),
      (c.settle now scope.kind (c.list scope)).member? scope.kind m.id = some m := fun m hm =>
    Contents.member?_settle_ranked hs hn hm
  have hn' : ((ranked (c.list scope)).map Member.id).Nodup := by rwa [map_id_ranked]
  have hc := isContiguous_ranked (c.list scope)
  simp only [swapAdjacent, on_bind, on_query, on_heal hs hn]
  rw [← map_id_ranked] at hid
  -- From here on only the healed listing matters, not where it comes from.
  generalize ranked (c.list scope) = members at *
  generalize c.settle now scope.kind (c.list scope) = c₁ at *
  unfold exchanged
  cases hi : members.findIdx? fun m => m.id == id with
  | none =>
    -- The entry is listed, so it is found.
    obtain ⟨m, hm, rfl⟩ := List.mem_map.mp hid
    have := List.findIdx?_eq_none_iff.mp hi m hm
    simp at this
  | some index =>
    cases hnb : neighbours? members index direction with
    | none => simp only [hnb, Option.bind_some, Option.map_none, on_pure]
    | some pair =>
      -- The two entries differ, so neither write misses its row or finds nothing to do.
      obtain ⟨this, other⟩ := pair
      obtain ⟨ht, ho, hne⟩ := neighbours_ne hn'.of_map hnb
      have hne' : this.id ≠ other.id := fun e => hne (List.inj_on_of_nodup_map hn' ht ho e)
      have hother : (c₁.settleFrom now scope.kind other.sortorder [this]).member? scope.kind
          other.id = some other :=
        Contents.member?_settleFrom_of_not_mem (hs' other ho) (by simpa using hne'.symm)
      simp only [hnb, Option.bind_some, Option.map_some, on_bind,
        on_place (hs' this ht) (sortorder_ne hc ht ho hne),
        on_place hother (sortorder_ne hc ho ht hne.symm), on_pure,
        settleFrom_swap hs' hn' hc ht ho hne']

/-- An order after the entry `id` has been put before another one, or last without a target. Before
itself it stays where it is. -/
def dragged (members : List Member) (id : Id) (before : Option Id) : Option (List Member) :=
  if before = some id then some members else reinsert members id before

theorem perm_of_dragged {members order : List Member} {before : Option Id}
    (h : (members.map Member.id).Nodup) (ho : dragged members id before = some order) :
    order.Perm members := by
  unfold dragged at ho
  split at ho
  · exact Option.some.inj ho ▸ .refl _
  · exact perm_of_reinsert h ho

theorem exists_dragged (id : Id) {members : List Member} {before : Option Id}
    (h : ∀ target, before = some target → target ∈ members.map Member.id) :
    ∃ order, dragged members id before = some order := by
  unfold dragged
  split
  · exact ⟨_, rfl⟩
  · next hne => exact exists_reinsert fun target ht => ⟨fun e => hne (e ▸ ht), h target ht⟩

/-- Putting an entry elsewhere in its listing settles the order that results. -/
theorem on_moveBefore {before : Option Id} :
    (moveBefore now scope id before).on c =
      if id ∈ (c.list scope).map Member.id then
        match dragged (c.list scope) id (target before) with
        | some order => (.ok (), c.settle now scope.kind order)
        | none => (.error (.invalidTarget id ((target before).getD noTarget)), c)
      else (.error (.notFound scope.kind id), c) := by
  have hany : ((c.list scope).any fun m => m.id == id) = true ↔
      id ∈ (c.list scope).map Member.id := by
    simp [List.any_eq_true, List.mem_map]
  -- Every order of the entries can be written.
  have hwrite : ∀ order : List Member, order.Perm (c.list scope) →
      (writeRanks now scope.kind order).on c =
        (.ok (misplaced order), c.settle now scope.kind order) := fun order hp =>
    on_writeRanks (fun m hm => Contents.member?_of_mem_list (hp.mem_iff.mp hm))
      (nodup_ids_of_perm hp (c.nodup_ids_list scope))
  simp only [moveBefore, on_bind, on_query]
  by_cases hid : id ∈ (c.list scope).map Member.id
  · rw [if_pos hid, if_pos (hany.mpr hid)]
    unfold dragged
    split
    · simp only [on_bind, hwrite _ (.refl _), on_pure]
    · cases ho : reinsert (c.list scope) id (target before) with
      | none => rfl
      | some order =>
        simp only [on_bind, hwrite _ (perm_of_reinsert (c.nodup_ids_list scope) ho), on_pure]
  · rw [if_neg hid, if_neg fun h => hid (hany.mp h)]
    rfl

theorem on_moveBefore_of_dragged {before : Option Id} {order : List Member}
    (hid : id ∈ (c.list scope).map Member.id)
    (ho : dragged (c.list scope) id (target before) = some order) :
    (moveBefore now scope id before).on c = (.ok (), c.settle now scope.kind order) := by
  rw [on_moveBefore, if_pos hid, ho]

/-- A field that exists, and whose target stands in another existing category, is moved there: the
order with the field before its target is settled there, then the category it has left. -/
theorem on_moveAcross (now : Int) (source : Scope) {field : Field} {categoryid : Id}
    {before : Option Id}
    (hf : c.field? id = some field) (hcat : c.hasCategory categoryid = true)
    (hb : ∀ t, target before = some t → t ∈ (c.list (.fields categoryid)).map Member.id) :
    ∃ order, dragged ((c.rehome id categoryid now).list (.fields categoryid)) id (target before) =
        some order ∧
      (moveAcross now source (.fields categoryid) id before).on c =
        (.ok (), ((c.rehome id categoryid now).settle now .field order).settle now source.kind
          (((c.rehome id categoryid now).settle now .field order).list source)) := by
  -- What is listed at the destination is still listed there when the field has arrived ...
  have hlisted : ∀ t ∈ (c.list (.fields categoryid)).map Member.id,
      t ∈ ((c.rehome id categoryid now).list (.fields categoryid)).map Member.id := by
    intro t ht
    obtain ⟨m, hm, rfl⟩ := List.mem_map.mp ht
    by_cases hid : m.id = id
    · refine List.mem_map.mpr ⟨field.member, (Contents.mem_list_rehome hf).mpr (.inr ⟨rfl, rfl⟩), ?_⟩
      exact (Contents.field?_eq_some_iff.mp hf).2.trans hid.symm
    · exact List.mem_map.mpr ⟨m, (Contents.mem_list_rehome hf).mpr (.inl ⟨hm, hid⟩), rfl⟩
  -- ... and so is the field itself, so that an order with the field before its target exists.
  have hmem : id ∈ ((c.rehome id categoryid now).list (.fields categoryid)).map Member.id :=
    List.mem_map.mpr ⟨field.member, (Contents.mem_list_rehome hf).mpr (.inr ⟨rfl, rfl⟩),
      (Contents.field?_eq_some_iff.mp hf).2⟩
  obtain ⟨order, ho⟩ := exists_dragged id fun t ht => hlisted t (hb t ht)
  have hcheck : ∀ t, target before = some t →
      ((c.list (.fields categoryid)).any fun m => m.id == t) = true := by
    intro t ht
    simpa [List.any_eq_true, List.mem_map] using hb t ht
  -- The three steps: the field changes its category, it is put in its place, and the category it
  -- has left is renumbered.
  have hset : (setCategory id categoryid now).on c = (.ok true, c.rehome id categoryid now) := by
    rw [on_setCategory, hf]
    exact if_pos hcat
  have hmove : (moveBefore now (.fields categoryid) id (target before)).on
      (c.rehome id categoryid now) =
        (.ok (), (c.rehome id categoryid now).settle now .field order) :=
    on_moveBefore_of_dragged hmem (by rw [target_target, ho])
  refine ⟨order, ho, ?_⟩
  simp only [moveAcross, on_bind, on_query]
  cases ht : target before with
  | none =>
    rw [ht] at hmove
    simp only [on_bind, on_pure, hset, hmove, on_renumber, if_true]
  | some t =>
    rw [ht] at hmove
    simp only [on_bind, on_pure, hset, hmove, on_renumber, hcheck t ht, Bool.not_true, if_true,
      Bool.false_eq_true, if_false]

end Listing

end FieldCatalog
