import FieldCatalog.Proofs.Catalog.Editing
import FieldCatalog.Proofs.Catalog.Isolation
import FieldCatalog.Proofs.Catalog.Stepping
import FieldCatalog.Proofs.Catalog.Validity

/-!
# Renumbering an area

Renumbering an area settles the listing of its categories and then the listing of the fields of each
of them, all in the orders they have. The listings of an area share no entry, so that an entry is moved
at most once: what one settling does to a listing is what the whole renumbering does to it, and the
entries that the settlings move can be counted one listing after another.

## Main definitions

* `Contents.settleEach`: several listings settled in the orders they have
* `Contents.scopesIn`: the listings of an area
* `Contents.displaced`: the number of entries that stand at other positions
* `Contents.Renumbered`: what renumbering an area amounts to

## Main results

* `Listing.misplacedFrom_eq_countP`: the entries that an order moves, counted
* `Contents.displaced_settleEach_cons`: the count, one listing after another
* `Statement.on_renumberArea`: the statement
* `Catalog.reorder_outcomes`: the outcome of renumbering an area, and of doing it again
-/

namespace FieldCatalog

/-! ## Counting -/

/-- What is counted by exactly one of two predicates is counted by both together. -/
theorem countP_eq_add {α : Type} {l : List α} {p q r : α → Bool}
    (h : ∀ a ∈ l, (q a = false ∧ p a = r a) ∨ (r a = false ∧ p a = q a)) :
    l.countP p = l.countP q + l.countP r := by
  induction l with
  | nil => rfl
  | cons a rest ih =>
    simp only [List.countP_cons, ih fun b hb => h b (.tail _ hb)]
    rcases h a List.mem_cons_self with ⟨hq, hp⟩ | ⟨hr, hp⟩
    · rw [hp, hq, if_neg Bool.false_ne_true]
      omega
    · rw [hp, hr, if_neg Bool.false_ne_true]
      omega

namespace Listing

/-- The entries that are not at their ranks are those that move when the order is settled. -/
theorem misplacedFrom_eq_countP {rank : Int} {order : List Member}
    (h : (order.map Member.id).Nodup) :
    misplacedFrom rank order = order.countP fun m => rankIn rank order m != m.sortorder := by
  -- Induction on the order: no later entry has the number of the first one, so the places of the
  -- others are those in the rest of the order.
  induction order generalizing rank with
  | nil => rfl
  | cons m ms ih =>
    rw [List.map_cons, List.nodup_cons] at h
    obtain ⟨hm, hms⟩ := h
    have hrest : ms.countP (fun n => rankIn rank (m :: ms) n != n.sortorder) =
        ms.countP fun n => rankIn (rank + 1) ms n != n.sortorder := by
      refine List.countP_congr fun n hn => ?_
      have hne : m.id ≠ n.id := fun he => hm (he ▸ List.mem_map_of_mem hn)
      rw [rankIn, if_neg hne]
    have hfirst : rankIn rank (m :: ms) m = rank := if_pos rfl
    rw [misplacedFrom, ih hms, List.countP_cons, hrest, hfirst, Nat.add_comm]
    by_cases hr : m.sortorder = rank
    · simp [hr]
    · simp [hr, Ne.symm hr]

end Listing

/-! ## Listings that are settled one after another -/

namespace Contents

variable {c c' c₁ : Contents} {area : Area} {kind : Kind} {scope : Scope} {scopes : List Scope}
  {id : Id} {now : Int}

/-- The contents after several listings have been settled in the orders they have. -/
def settleEach (now : Int) (scopes : List Scope) (c : Contents) : Contents :=
  scopes.foldl (fun c scope => c.settle now scope.kind (c.list scope)) c

@[simp] theorem settleEach_nil (c : Contents) (now : Int) : c.settleEach now [] = c := rfl

@[simp] theorem settleEach_cons (c : Contents) (now : Int) (scope : Scope) (scopes : List Scope) :
    c.settleEach now (scope :: scopes) =
      (c.settle now scope.kind (c.list scope)).settleEach now scopes := rfl

theorem rearranged_settleEach (c : Contents) (now : Int) (scopes : List Scope) :
    c.Rearranged (c.settleEach now scopes) := by
  induction scopes generalizing c with
  | nil => exact .refl c
  | cons scope scopes ih => exact (rearranged_settle c now _ _).trans (ih _)

theorem unplaced?_settleEach (c : Contents) (now : Int) (scopes : List Scope) (kind : Kind)
    (id : Id) : (c.settleEach now scopes).unplaced? kind id = c.unplaced? kind id := by
  induction scopes generalizing c with
  | nil => rfl
  | cons scope scopes ih => exact (ih _).trans (unplaced?_settle c now _ _ kind id)

/-- A listing that is not settled keeps its entries. -/
theorem list_settleEach_of_not_mem (h : scope ∉ scopes) :
    (c.settleEach now scopes).list scope = c.list scope := by
  induction scopes generalizing c with
  | nil => rfl
  | cons first rest ih =>
    rw [List.mem_cons, not_or] at h
    exact (ih h.2).trans (list_settle_of_ne (.refl _) h.1)

/-- A listing that is settled once stands at its ranks. -/
theorem list_settleEach_of_mem (hn : scopes.Nodup) (h : scope ∈ scopes) :
    (c.settleEach now scopes).list scope = Listing.ranked (c.list scope) := by
  induction scopes generalizing c with
  | nil => cases h
  | cons first rest ih =>
    obtain ⟨hfirst, hrest⟩ := List.nodup_cons.mp hn
    rw [settleEach_cons]
    rcases List.mem_cons.mp h with rfl | h
    · rw [list_settleEach_of_not_mem hfirst, list_settle now (.refl _)]
    · have hne : scope ≠ first := fun he => hfirst (he ▸ h)
      rw [ih hrest h, list_settle_of_ne (.refl _) hne]

/-- An entry of none of the settled listings keeps its row. -/
theorem row?_settleEach_of_forall_ne (h : ∀ scope ∈ scopes, c.scope? kind id ≠ some scope) :
    (c.settleEach now scopes).row? kind id = c.row? kind id := by
  induction scopes generalizing c with
  | nil => rfl
  | cons first rest ih =>
    have hrest : ∀ scope ∈ rest, (c.settle now first.kind (c.list first)).scope? kind id ≠
        some scope := by
      intro scope hscope
      rw [scope?_settle]
      exact h scope (.tail _ hscope)
    exact (ih hrest).trans (row?_settle_of_scope?_ne now (.refl _) (h first List.mem_cons_self))

/-- Of the first settling and the others, at least one leaves an entry alone. -/
theorem row?_settleEach_cons (c : Contents) (now : Int) (hn : (scope :: scopes).Nodup) (kind : Kind)
    (id : Id) :
    let c₁ := c.settle now scope.kind (c.list scope)
    c₁.row? kind id = c.row? kind id ∨
      (c₁.settleEach now scopes).row? kind id = c₁.row? kind id := by
  intro c₁
  by_cases hscope : c.scope? kind id = some scope
  · refine .inr (row?_settleEach_of_forall_ne fun other hother he => ?_)
    rw [scope?_settle, hscope] at he
    exact (List.nodup_cons.mp hn).1 (Option.some.inj he ▸ hother)
  · exact .inl (row?_settle_of_scope?_ne now (.refl _) hscope)

/-- Settling listings that are contiguous changes nothing. -/
theorem settleEach_eq_self (h : ∀ scope ∈ scopes, Listing.isContiguous (c.list scope) = true) :
    c.settleEach now scopes = c := by
  induction scopes with
  | nil => rfl
  | cons first rest ih =>
    rw [settleEach_cons, settle_eq_self now (h first List.mem_cons_self),
      ih fun scope hscope => h scope (.tail _ hscope)]

/-! ## The entries that have moved -/

/-- The numbers in use among the entries of a kind. -/
def ids (c : Contents) : Kind → List Id
  | .category => c.categoryIds
  | .field => c.fieldIds

/-- The position of the entry of a kind with the given number. -/
def position? (c : Contents) (kind : Kind) (id : Id) : Option Int :=
  (c.member? kind id).map Member.sortorder

/-- How many entries of a kind stand at other positions than before. -/
def displacedOf (c c' : Contents) (kind : Kind) : Nat :=
  (c.ids kind).countP fun id => c'.position? kind id != c.position? kind id

/-- How many entries stand at other positions than before. -/
def displaced (c c' : Contents) : Nat :=
  c.displacedOf c' .category + c.displacedOf c' .field

theorem position?_congr (h : c'.row? kind id = c.row? kind id) :
    c'.position? kind id = c.position? kind id := by
  rw [position?, position?, member?_eq_map, member?_eq_map, h]

theorem mem_ids_iff : id ∈ c.ids kind ↔ ∃ m, c.member? kind id = some m := by
  cases kind with
  | category =>
    simp only [ids, categoryIds, List.mem_map, member?, Option.map_eq_some_iff]
    constructor
    · rintro ⟨row, hrow, hid⟩
      exact ⟨row.member, row, category?_eq_some_iff.mpr ⟨hrow, hid⟩, rfl⟩
    · rintro ⟨-, row, hrow, -⟩
      exact ⟨row, category?_eq_some_iff.mp hrow⟩
  | field =>
    simp only [ids, fieldIds, List.mem_map, member?, Option.map_eq_some_iff]
    constructor
    · rintro ⟨row, hrow, hid⟩
      exact ⟨row.member, row, field?_eq_some_iff.mpr ⟨hrow, hid⟩, rfl⟩
    · rintro ⟨-, row, hrow, -⟩
      exact ⟨row, field?_eq_some_iff.mp hrow⟩

theorem nodup_ids (c : Contents) (kind : Kind) : (c.ids kind).Nodup := by
  cases kind with
  | category => exact c.categories.nodup_keys
  | field => exact c.fields.nodup_keys

/-- Settling a listing gives no number to a new entry and takes none away. -/
theorem ids_settle (c : Contents) (now : Int) (kind' : Kind) (order : List Member) (kind : Kind) :
    (c.settle now kind' order).ids kind = c.ids kind := by
  cases kind' <;> cases kind
  case category.category =>
    simp [ids, categoryIds, settle, settleFrom, moveAll, Table.mapRows, Function.comp_def]
  case category.field => rfl
  case field.category => rfl
  case field.field =>
    simp [ids, fieldIds, settle, settleFrom, moveAll, Table.mapRows, Function.comp_def]

/-- Settling an order changes the positions of the entries whose rows it changes. -/
theorem position?_settle_ne_iff {kind' : Kind} {order : List Member} :
    (c.settle now kind order).position? kind' id ≠ c.position? kind' id ↔
      kind' = kind ∧ ∃ m, c.member? kind id = some m ∧ Listing.rankIn 0 order m ≠ m.sortorder := by
  constructor
  · exact fun h => row?_moveAll_ne_iff.mp fun hrow => h (position?_congr hrow)
  · rintro ⟨rfl, m, hm, hmoved⟩
    rw [position?, position?, settle, settleFrom, member?_moveAll, hm]
    exact fun he => hmoved (Option.some.inj he)

/-- An entry whose position is the same after an order has been settled has the same row. -/
theorem row?_settle_of_position?_eq {kind' : Kind} {order : List Member}
    (h : (c.settle now kind order).position? kind' id = c.position? kind' id) :
    (c.settle now kind order).row? kind' id = c.row? kind' id := by
  by_contra hrow
  exact position?_settle_ne_iff.mpr (row?_moveAll_ne_iff.mp hrow) h

@[simp] theorem displaced_self (c : Contents) : c.displaced c = 0 := by
  simp [displaced, displacedOf]

/-- When each entry is left alone by one of two steps, the entries moved by either add up. -/
theorem displaced_eq_add (hids : ∀ kind, c₁.ids kind = c.ids kind)
    (h : ∀ kind id, c₁.row? kind id = c.row? kind id ∨ c'.row? kind id = c₁.row? kind id) :
    c.displaced c' = c.displaced c₁ + c₁.displaced c' := by
  have hof : ∀ kind, c.displacedOf c' kind = c.displacedOf c₁ kind + c₁.displacedOf c' kind := by
    intro kind
    rw [displacedOf, displacedOf, displacedOf, hids]
    refine countP_eq_add fun id _ => ?_
    rcases h kind id with hrow | hrow
    · refine .inl ⟨?_, ?_⟩ <;> simp [position?_congr hrow]
    · refine .inr ⟨?_, ?_⟩ <;> simp [position?_congr hrow]
  rw [displaced, displaced, displaced, hof, hof]
  omega

/-- Settling a listing moves the entries that are not at their ranks. -/
theorem displaced_settle (c : Contents) (now : Int) (scope : Scope) :
    c.displaced (c.settle now scope.kind (c.list scope)) = Listing.misplaced (c.list scope) := by
  -- The entries of the other kind do not move, and of the same kind only those of the listing.
  have hother : ∀ kind, kind ≠ scope.kind →
      c.displacedOf (c.settle now scope.kind (c.list scope)) kind = 0 := by
    intro kind hne
    refine List.countP_eq_zero.mpr fun id _ => ?_
    simpa using fun h => hne (position?_settle_ne_iff.mp h).1
  have hown : c.displacedOf (c.settle now scope.kind (c.list scope)) scope.kind =
      Listing.misplaced (c.list scope) := by
    rw [Listing.misplaced, Listing.misplacedFrom_eq_countP (c.nodup_ids_list scope), displacedOf,
      List.countP_eq_length_filter, List.countP_eq_length_filter, ← List.length_map Member.id]
    refine List.Perm.length_eq ((List.perm_ext_iff_of_nodup ((c.nodup_ids scope.kind).filter _)
      ((List.filter_sublist.map Member.id).nodup (c.nodup_ids_list scope))).mpr fun id => ?_)
    rw [List.mem_filter, List.mem_map, bne_iff_ne, position?_settle_ne_iff]
    constructor
    · rintro ⟨-, -, m, hm, hmoved⟩
      have hmem : id ∈ (c.list scope).map Member.id := by
        by_contra hnot
        obtain rfl := id_of_member? hm
        exact hmoved (Listing.rankIn_of_not_mem hnot)
      obtain ⟨n, hn, rfl⟩ := List.mem_map.mp hmem
      obtain rfl : n = m := Option.some.inj ((member?_of_mem_list hn).symm.trans hm)
      exact ⟨n, List.mem_filter.mpr ⟨hn, bne_iff_ne.mpr hmoved⟩, rfl⟩
    · rintro ⟨m, hm, rfl⟩
      obtain ⟨hmem, hmoved⟩ := List.mem_filter.mp hm
      have hentry := member?_of_mem_list hmem
      exact ⟨mem_ids_iff.mpr ⟨m, hentry⟩, rfl, m, hentry, bne_iff_ne.mp hmoved⟩
  rw [displaced]
  cases hk : scope.kind with
  | category => rw [← hk, hown, hother .field (by simp [hk]), Nat.add_zero]
  | field => rw [← hk, hown, hother .category (by simp [hk]), Nat.zero_add]

/-- The entries moved by several settlings are those moved by the first and by the others. -/
theorem displaced_settleEach_cons (hn : (scope :: scopes).Nodup) :
    c.displaced (c.settleEach now (scope :: scopes)) =
      Listing.misplaced (c.list scope) +
        (c.settle now scope.kind (c.list scope)).displaced (c.settleEach now (scope :: scopes)) := by
  rw [← displaced_settle c now scope]
  exact displaced_eq_add (ids_settle c now _ _) (c.row?_settleEach_cons now hn)

/-- An entry whose position is the same after several listings have been settled has the same
row. -/
theorem row?_settleEach_of_position?_eq (hn : scopes.Nodup)
    (h : (c.settleEach now scopes).position? kind id = c.position? kind id) :
    (c.settleEach now scopes).row? kind id = c.row? kind id := by
  induction scopes generalizing c with
  | nil => rfl
  | cons first rest ih =>
    rw [settleEach_cons] at h ⊢
    rcases c.row?_settleEach_cons now hn kind id with hrow | hrow
    · rw [← position?_congr hrow] at h
      exact (ih (List.nodup_cons.mp hn).2 h).trans hrow
    · rw [position?_congr hrow] at h
      exact hrow.trans (row?_settle_of_position?_eq h)

/-! ## The listings of an area -/

/-- The listings of an area: its categories, and the fields of each of them. -/
def scopesIn (c : Contents) (area : Area) : List Scope :=
  .categories area :: (c.list (.categories area)).map fun m => .fields m.id

theorem mem_scopesIn_iff : scope ∈ c.scopesIn area ↔ c.areaOf? scope = some area := by
  rw [scopesIn, List.mem_cons]
  cases scope with
  | categories own => simp [areaOf?]
  | fields home =>
    simp only [List.mem_map, mem_list_categories, areaOf?_fields_eq_some_iff, reduceCtorEq, false_or,
      Scope.fields.injEq]
    constructor
    · rintro ⟨-, ⟨row, hrow, harea, rfl⟩, hid⟩
      exact ⟨row, hrow, hid, harea⟩
    · rintro ⟨row, hrow, hid, harea⟩
      exact ⟨row.member, ⟨row, hrow, harea, rfl⟩, hid⟩

theorem nodup_scopesIn (c : Contents) (area : Area) : (c.scopesIn area).Nodup := by
  refine List.nodup_cons.mpr ⟨by simp, ?_⟩
  have hids := (c.nodup_ids_list (.categories area)).map (f := Scope.fields)
    fun _ _ h => Scope.fields.inj h
  rwa [List.map_map] at hids

/-- The categories of an area have the same numbers in the same order after they have been
settled. -/
theorem scopesIn_eq_of_settled (c : Contents) (area : Area) (now : Int) :
    c.scopesIn area = .categories area ::
      ((c.settle now .category (c.list (.categories area))).categoriesOf area).map
        fun row => .fields row.id := by
  have hids : ((c.settle now .category (c.list (.categories area))).list (.categories area)).map
      Member.id = (c.list (.categories area)).map Member.id :=
    (standsAs_settle now (.refl (c.list (.categories area)))).ids
  have hscopes := congrArg (List.map Scope.fields) hids
  rw [list_categories, List.map_map, List.map_map, List.map_map] at hscopes
  exact congrArg (List.cons _) hscopes.symm

/-- An entry belongs to the area of its listing. -/
theorem entryArea?_eq_bind (c : Contents) (kind : Kind) (id : Id) :
    c.entryArea? kind id = (c.scope? kind id).bind c.areaOf? := by
  cases kind with
  | category =>
    rw [entryArea?, scope?]
    cases c.category? id <;> rfl
  | field =>
    rw [entryArea?, scope?]
    cases c.field? id <;> rfl

/-- Renumbering an area leaves its listings at their ranks, in the orders they have had. Nothing but
positions and time stamps changes, and of the rows only those of entries of the area that have to
move. -/
structure Renumbered (c : Contents) (area : Area) (c' : Contents) : Prop where
  stands : ∀ scope, c.areaOf? scope = some area →
    c'.StandsAs scope ((c.list scope).map Member.id)
  stays : ∀ kind id, c'.unplaced? kind id = c.unplaced? kind id
  unmoved : ∀ kind id, c'.position? kind id = c.position? kind id →
    c'.row? kind id = c.row? kind id
  elsewhere : ∀ kind id, c.entryArea? kind id ≠ some area → c'.row? kind id = c.row? kind id

theorem renumbered_settleEach (c : Contents) (area : Area) (now : Int) :
    c.Renumbered area (c.settleEach now (c.scopesIn area)) where
  stands _ harea := standsAs_of_list_eq_ranked
    (list_settleEach_of_mem (c.nodup_scopesIn area) (mem_scopesIn_iff.mpr harea))
  stays := unplaced?_settleEach c now _
  unmoved _ _ := row?_settleEach_of_position?_eq (c.nodup_scopesIn area)
  elsewhere kind id hentry := by
    refine row?_settleEach_of_forall_ne fun scope hscope he => hentry ?_
    rw [entryArea?_eq_bind, he]
    exact mem_scopesIn_iff.mp hscope

/-- An area that has been renumbered has its listings at their ranks, so that there is nothing left
to renumber. -/
theorem settleEach_settleEach (c : Contents) (area : Area) (now now' : Int) :
    let c' := c.settleEach now (c.scopesIn area)
    c'.settleEach now' (c'.scopesIn area) = c' := by
  intro c'
  refine settleEach_eq_self fun scope hscope => ?_
  have harea := mem_scopesIn_iff.mp hscope
  rw [(rearranged_settleEach c now (c.scopesIn area)).areaOf?_eq] at harea
  exact ((renumbered_settleEach c area now).stands scope harea).isContiguous

end Contents

/-! ## The statement -/

namespace Statement

open Contents

variable {c : Contents}

/-- Renumbering the fields of several categories settles their listings and counts the entries that
move. -/
theorem on_renumberFields_of_nodup (now : Int) {categories : List Category}
    (hn : (categories.map fun row => Scope.fields row.id).Nodup) :
    (renumberFields now categories).on c =
      (.ok (c.displaced (c.settleEach now (categories.map fun row => .fields row.id))),
        c.settleEach now (categories.map fun row => .fields row.id)) := by
  -- Induction on the categories, for all contents: the fields of the others are renumbered when
  -- those of the first one have been settled.
  induction categories generalizing c with
  | nil => rw [List.map_nil, settleEach_nil, displaced_self, renumberFields, on_pure]
  | cons row rest ih =>
    rw [List.map_cons] at hn ⊢
    rw [displaced_settleEach_cons hn, settleEach_cons]
    simp only [renumberFields, on_bind, Listing.on_renumber, Scope.kind,
      ih (List.nodup_cons.mp hn).2, on_pure]

/-- Renumbering an area settles its listings and counts the entries that move. -/
theorem on_renumberArea (area : Area) (now : Int) :
    (renumberArea area now).on c =
      (.ok (c.displaced (c.settleEach now (c.scopesIn area))),
        c.settleEach now (c.scopesIn area)) := by
  have hn := c.nodup_scopesIn area
  rw [scopesIn_eq_of_settled c area now] at hn ⊢
  rw [displaced_settleEach_cons hn, settleEach_cons]
  simp only [renumberArea, on_bind, Listing.on_renumber, Scope.kind, on_query,
    on_renumberFields_of_nodup now (List.nodup_cons.mp hn).2, on_pure]

end Statement

/-! ## The outcomes of renumbering -/

namespace Catalog

open Contents Statement

variable {σ : Type} {k : Circumstances σ} {h : Holdings σ} {area : Area}

theorem run_reorder (hheld : k.heldElsewhere = false) (hnamed : area.Named) :
    (reorder area).run k h =
      (.ok (h.contents.displaced (h.contents.settleEach k.now (h.contents.scopesIn area))),
        { h with contents := h.contents.settleEach k.now (h.contents.scopesIn area) }) := by
  rw [reorder, Call.run_ofResult_bind, Area.check_eq_ok_iff.mpr hnamed]
  exact Call.run_mutate_of_ok hheld (on_renumberArea area k.now)

/-- While nobody else holds the write lock, renumbering an area answers how many entries have moved,
and renumbering it again answers zero and changes nothing. -/
theorem reorder_outcomes (hheld : k.heldElsewhere = false) (hnamed : area.Named) :
    ∃ c', (reorder area).run k h =
        (.ok (h.contents.displaced c'), { h with contents := c' }) ∧
      h.contents.Renumbered area c' ∧
      ∀ k' : Circumstances σ, k'.heldElsewhere = false →
        (reorder area).run k' { h with contents := c' } = (.ok 0, { h with contents := c' }) := by
  refine ⟨_, run_reorder hheld hnamed, renumbered_settleEach _ area k.now, fun k' hheld' => ?_⟩
  rw [run_reorder hheld' hnamed, settleEach_settleEach, displaced_self]

theorem reorder_outcomes_disordered :
    let k : Circumstances Unit := ⟨.builtin, 3, false, 6⟩
    let h : Holdings Unit := ⟨.disordered, ()⟩
    ∃ c', (reorder ⟨"core", "course", 0⟩).run k h = (.ok 6, { h with contents := c' }) ∧
      c'.StandsAs (.categories ⟨"core", "course", 0⟩) [2, -3, 0] ∧
      c'.StandsAs (.fields (-3)) [1, 2] ∧ c'.row? .field 5 = h.contents.row? .field 5 ∧
      (reorder ⟨"core", "course", 0⟩).run k { h with contents := c' } =
        (.ok 0, { h with contents := c' }) := by
  intro k h
  have hnamed : (⟨"core", "course", 0⟩ : Area).Named := by decide
  obtain ⟨c', hrun, hc', hagain⟩ := reorder_outcomes (k := k) (h := h) rfl hnamed
  have hcount : ((reorder ⟨"core", "course", 0⟩).run k h).1 = .ok 6 := by rfl
  rw [hrun] at hcount
  exact ⟨c', hrun.trans (Prod.ext hcount rfl), hc'.stands _ rfl,
    hc'.stands (.fields (-3)) (by decide), hc'.elsewhere .field 5 (by decide), hagain k rfl⟩

end Catalog

end FieldCatalog
