import FieldCatalog.Proofs.Store.Reading

/-!
# Positions that are taken

Whether a listing stands at its ranks is found out by comparing one entry after another with its place in
the order. The rows themselves tell it without any order: the listing is at its ranks exactly when each of
the positions `0, 1, ..., n - 1` is taken by one of its `n` rows, and no row is anywhere else. A gap, two rows
at one position and a position below zero or beyond the end are what this rules out.

## Main definitions

* `Contents.rowsOf`: the rows of a listing, as they are stored
* `Contents.positionOf`: the position that a row of either kind is at

## Main results

* `Listing.isContiguous_iff_perm`: entries in order are at their ranks if their positions are those numbers
* `Listing.perm_range_iff`: values that are a permutation of the first numbers, counted one by one
* `Contents.perm_list_rowsOf`: a listing consists of its rows
* `Contents.isContiguous_list_decides`: what comparing the entries with their places decides
-/

namespace FieldCatalog

namespace Listing

/-- The positions of entries in order do not descend. -/
theorem pairwise_sortorder_le {members : List Member} (h : members.Pairwise Member.Precedes) :
    (members.map Member.sortorder).Pairwise (· ≤ ·) := by
  refine List.pairwise_map.mpr (h.imp ?_)
  rintro a b (hlt | ⟨heq, -⟩)
  · exact Int.le_of_lt hlt
  · exact Int.le_of_eq heq

/-- Entries in order are at their ranks as soon as their positions are those numbers in any order. -/
theorem isContiguous_iff_perm {members : List Member} (h : members.Pairwise Member.Precedes) :
    isContiguous members = true ↔
      (members.map Member.sortorder).Perm ((List.range members.length).map Int.ofNat) := by
  rw [isContiguous_iff]
  constructor
  · exact fun heq => .of_eq heq
  · -- Both sides ascend, and what ascends is determined by what it is a permutation of.
    intro hperm
    have hranks : ((List.range members.length).map Int.ofNat).Pairwise (· ≤ ·) :=
      List.pairwise_map.mpr (List.pairwise_lt_range.imp fun hlt => Int.ofNat_le.mpr (Nat.le_of_lt hlt))
    exact hperm.eq_of_pairwise (fun _ _ _ _ => Int.le_antisymm) (pairwise_sortorder_le h) hranks

/-- The values of a function on different elements are the first `n` numbers in some order exactly when each
of these numbers is the value at one element, and no value is anything else. -/
theorem perm_range_iff {α : Type} {f : α → Int} {l : List α} (hl : l.Nodup) {n : Nat} :
    (l.map f).Perm ((List.range n).map Int.ofNat) ↔
      (∀ p < n, ∃! a, a ∈ l ∧ f a = p) ∧ ∀ a ∈ l, ∃ p < n, f a = p := by
  have hrange : ((List.range n).map Int.ofNat).Nodup :=
    List.nodup_range.map fun _ _ => Int.ofNat.inj
  constructor
  · intro hperm
    have hvalue : ∀ x : Int, x ∈ l.map f ↔ ∃ p < n, x = p := by
      intro x
      rw [hperm.mem_iff, List.mem_map]
      simp only [List.mem_range, Int.ofNat_eq_natCast, eq_comm (b := x)]
    refine ⟨fun p hp => ?_, fun a ha => (hvalue (f a)).mp (List.mem_map_of_mem ha)⟩
    obtain ⟨a, ha, hfa⟩ := List.mem_map.mp ((hvalue p).mpr ⟨p, hp, rfl⟩)
    refine ⟨a, ⟨ha, hfa⟩, fun b hb => ?_⟩
    exact List.inj_on_of_nodup_map (hperm.nodup_iff.mpr hrange) hb.1 ha (hb.2.trans hfa.symm)
  · rintro ⟨htaken, hwithin⟩
    -- Two elements of one value would both be the one element whose value it is.
    have hinj : ∀ a ∈ l, ∀ b ∈ l, f a = f b → a = b := by
      intro a ha b hb hab
      obtain ⟨p, hp, hfa⟩ := hwithin a ha
      exact (htaken p hp).unique ⟨ha, hfa⟩ ⟨hb, hab.symm.trans hfa⟩
    refine (List.perm_ext_iff_of_nodup (hl.map_on hinj) hrange).mpr fun x => ?_
    simp only [List.mem_map, List.mem_range, Int.ofNat_eq_natCast]
    constructor
    · rintro ⟨a, ha, rfl⟩
      obtain ⟨p, hp, hfa⟩ := hwithin a ha
      exact ⟨p, hp, hfa.symm⟩
    · rintro ⟨p, hp, rfl⟩
      obtain ⟨a, ha, -⟩ := htaken p hp
      exact ⟨a, ha⟩

end Listing

namespace Contents

/-! ## The rows of a listing -/

/-- The rows of both tables that stand in a listing, in the order in which they are stored. -/
def rowsOf (c : Contents) (scope : Scope) : List (Category ⊕ Field) :=
  (c.categories.rows.map Sum.inl ++ c.fields.rows.map Sum.inr).filter fun row =>
    row.elim Category.scope Field.scope = scope

/-- The position that a row of either kind is at. -/
def positionOf : Category ⊕ Field → Int :=
  Sum.elim Category.sortorder Field.sortorder

/-- No field stands in the listing of an area. -/
theorem rowsOf_categories (c : Contents) (area : Area) :
    c.rowsOf (.categories area) = (c.categories.rows.filter fun row => row.area = area).map .inl := by
  simp [rowsOf, List.filter_map, Function.comp_def, Category.scope, Field.scope]

/-- No category stands in the listing of a category. -/
theorem rowsOf_fields (c : Contents) (home : Id) :
    c.rowsOf (.fields home) = (c.fields.rows.filter fun row => row.categoryid = home).map .inr := by
  simp [rowsOf, List.filter_map, Function.comp_def, Category.scope, Field.scope]

/-- A listing consists of its rows. -/
theorem perm_list_rowsOf (c : Contents) (scope : Scope) :
    (c.list scope).Perm ((c.rowsOf scope).map (Sum.elim Category.member Field.member)) := by
  cases scope with
  | categories area =>
    rw [rowsOf_categories, List.map_map]
    exact Listing.perm_arrange _
  | fields home =>
    rw [rowsOf_fields, List.map_map]
    exact Listing.perm_arrange _

/-- The positions of a listing are those of its rows. -/
theorem perm_sortorder_rowsOf (c : Contents) (scope : Scope) :
    ((c.list scope).map Member.sortorder).Perm ((c.rowsOf scope).map positionOf) := by
  have hposition : Member.sortorder ∘ Sum.elim Category.member Field.member = positionOf :=
    funext fun row => by cases row <;> rfl
  rw [← hposition, ← List.map_map]
  exact (c.perm_list_rowsOf scope).map Member.sortorder

/-- No row of a listing is stored twice. -/
theorem nodup_rowsOf (c : Contents) (scope : Scope) : (c.rowsOf scope).Nodup :=
  .of_map _ (.of_map Member.id
    (Listing.nodup_ids_of_perm (c.perm_list_rowsOf scope).symm (c.nodup_ids_list scope)))

/-- What is decided by comparing the entries of a listing with their places does not depend on any order. A
listing of `n` entries is contiguous exactly when the positions of its rows, in whatever order these are
stored, are a permutation of `0, 1, ..., n - 1`; which is to say that each of these positions is taken by exactly
one row of the listing, and that no row of it is at another one. -/
theorem isContiguous_list_decides (c : Contents) (scope : Scope) (n : Nat) (hn : c.count scope = n) :
    (∀ rows : List (Category ⊕ Field), rows.Perm (c.rowsOf scope) →
      (Listing.isContiguous (c.list scope) = true ↔
        (rows.map positionOf).Perm ((List.range n).map Int.ofNat))) ∧
    (Listing.isContiguous (c.list scope) = true ↔
      (∀ p < n, ∃! row, row ∈ c.rowsOf scope ∧ positionOf row = p) ∧
        ∀ row ∈ c.rowsOf scope, ∃ p < n, positionOf row = p) := by
  have hperm : ∀ rows : List (Category ⊕ Field), rows.Perm (c.rowsOf scope) →
      (Listing.isContiguous (c.list scope) = true ↔
        (rows.map positionOf).Perm ((List.range n).map Int.ofNat)) := by
    intro rows hrows
    have hpositions : ((c.list scope).map Member.sortorder).Perm (rows.map positionOf) :=
      (c.perm_sortorder_rowsOf scope).trans (hrows.map positionOf).symm
    rw [Listing.isContiguous_iff_perm (c.pairwise_list scope), ← c.count_eq_length_list, hn]
    exact ⟨hpositions.symm.trans, hpositions.trans⟩
  exact ⟨hperm, (hperm _ (.refl _)).trans (Listing.perm_range_iff (c.nodup_rowsOf scope))⟩

/-- Three categories are at the positions 0, 1 and 2, though they are stored in another order. Of the fields of
one of them two are at position 0 and none is at 1, and the only category of the other area is below zero. -/
theorem isContiguous_list_decides_sample :
    let course : Area := ⟨"core", "course", 0⟩
    let user : Area := ⟨"core", "user", 0⟩
    let general : Category := ⟨-1, "General", "", course, 2, 5, 5⟩
    let planning : Category := ⟨2, "Planning", "", course, 0, 5, 5⟩
    let grading : Category := ⟨3, "Grading", "", course, 1, 5, 5⟩
    let profile : Category := ⟨4, "Profile", "", user, -1, 5, 5⟩
    let c : Contents :=
      { categories := ⟨[general, planning, grading, profile], by decide⟩
        fields := ⟨[⟨1, "level", "Level", "text", "", 2, 0, "\x7b\x7d", 5, 5⟩,
          ⟨2, "room", "Room", "text", "", 2, 0, "\x7b\x7d", 5, 5⟩], by decide⟩ }
    [.inl grading, .inl general, .inl planning].Perm (c.rowsOf (.categories course)) ∧
      c.count (.categories course) = 3 ∧ Listing.isContiguous (c.list (.categories course)) = true ∧
      (∃! row, row ∈ c.rowsOf (.categories course) ∧ positionOf row = 1) ∧
      c.count (.fields 2) = 2 ∧ Listing.isContiguous (c.list (.fields 2)) = false ∧
      c.count (.categories user) = 1 ∧ Listing.isContiguous (c.list (.categories user)) = false := by
  intro course user general planning grading profile c
  have hrows : [.inl grading, .inl general, .inl planning].Perm (c.rowsOf (.categories course)) := by
    decide
  obtain ⟨hperm, htaken⟩ := isContiguous_list_decides c (.categories course) 3 (by decide)
  obtain ⟨hrepeated, -⟩ := isContiguous_list_decides c (.fields 2) 2 (by decide)
  obtain ⟨-, hbelow⟩ := isContiguous_list_decides c (.categories user) 1 (by decide)
  have hcontiguous : Listing.isContiguous (c.list (.categories course)) = true :=
    (hperm _ hrows).mpr (by decide)
  refine ⟨hrows, by decide, hcontiguous, (htaken.mp hcontiguous).1 1 (by decide), by decide, ?_,
    by decide, ?_⟩
  · have hgap : ¬ ((c.rowsOf (.fields 2)).map positionOf).Perm ((List.range 2).map Int.ofNat) := by
      decide
    exact Bool.eq_false_iff.mpr fun h => hgap ((hrepeated _ (.refl _)).mp h)
  · refine Bool.eq_false_iff.mpr fun h => ?_
    have hprofile : [.inl profile].Perm (c.rowsOf (.categories user)) := by decide
    obtain ⟨p, -, hp⟩ := (hbelow.mp h).2 _ (hprofile.subset List.mem_cons_self)
    have hp : (-1 : Int) = p := hp
    omega

end Contents

end FieldCatalog
