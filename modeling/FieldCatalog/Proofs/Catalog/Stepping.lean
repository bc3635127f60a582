import FieldCatalog.Proofs.Catalog.Dragging
import FieldCatalog.Proofs.Catalog.Entries

/-!
# Arrows

What an arrow leads to, whatever order it finds. An arrow that points past the end of the listing
answers `false` and moves nothing; any other arrow answers `true` and exchanges its entry with the
neighbour, and the arrow in the other direction takes this back. Either way the listing stands at
its ranks afterwards, and when it has stood at them before no other row than those of the two entries
is touched.

## Main definitions

* `Catalog.moveEntry`: the arrows of categories and of fields

## Main results

* `Listing.rankIn_map_swap_ne_iff`: an exchange moves the two entries only
* `Catalog.run_moveEntry_of_edge`, `Catalog.run_moveEntry_of_exchanged`: the two answers
* `Catalog.moveEntry_outcomes`: the outcomes of an arrow
-/

namespace FieldCatalog

/-! ## An exchange of neighbours -/

namespace Listing

variable {members : List Member} {this other m : Member}

/-- In a contiguous listing an exchange gives the two entries new places, and no other entry one. -/
theorem rankIn_map_swap_ne_iff (hn : (members.map Member.id).Nodup)
    (hc : isContiguous members = true) (ht : this ∈ members) (ho : other ∈ members)
    (hne : this ≠ other) (hm : m.id ∈ members.map Member.id → m ∈ members) :
    rankIn 0 (members.map (Equiv.swap this other)) m ≠ m.sortorder ↔
      m.id = this.id ∨ m.id = other.id := by
  have hperm := perm_map_swap hn.of_map ht ho
  have hn' := nodup_ids_of_perm hperm hn
  have hids : ∀ n ∈ members, m.id = n.id → m = n := fun n hn₁ hid =>
    List.inj_on_of_nodup_map hn (hm (hid ▸ List.mem_map_of_mem hn₁)) hn₁ hid
  by_cases hthis : m.id = this.id
  · -- The entry gets the position of its neighbour.
    obtain rfl := hids this ht hthis
    have hid : m.id = (Equiv.swap m other other).id := by rw [Equiv.swap_apply_right]
    rw [rankIn_map hc hn' ho hid]
    exact iff_of_true (sortorder_ne hc ho ht hne.symm) (.inl rfl)
  · by_cases hother : m.id = other.id
    · obtain rfl := hids other ho hother
      have hid : m.id = (Equiv.swap this m this).id := by rw [Equiv.swap_apply_left]
      rw [rankIn_map hc hn' ht hid]
      exact iff_of_true (sortorder_ne hc ht ho hne) (.inr rfl)
    · refine iff_of_false (not_not_intro ?_) (not_or_intro hthis hother)
      by_cases hmem : m.id ∈ members.map Member.id
      · have hswap : Equiv.swap this other m = m :=
          Equiv.swap_apply_of_ne_of_ne (fun e => hthis (e ▸ rfl)) fun e => hother (e ▸ rfl)
        exact rankIn_map hc hn' (hm hmem) (congrArg Member.id hswap).symm
      · exact rankIn_of_not_mem fun h => hmem ((hperm.map _).mem_iff.mp h)

/-- An entry that does not stand at the end of its listing has a neighbour to change places with. -/
theorem exists_exchanged {id : Id} (direction : Direction) (hn : (members.map Member.id).Nodup)
    (hid : id ∈ members.map Member.id) (hedge : edge direction (members.map Member.id) ≠ some id) :
    ∃ other order, Exchanged id other direction (members.map Member.id) order := by
  obtain ⟨-, he⟩ | ⟨_, _, _, _, -, -, -, hx⟩ := edge_or_exchanged direction hn hid
  · exact absurd he hedge
  · exact ⟨_, _, hx⟩

end Listing

namespace Contents

variable {c : Contents} {scope : Scope} {now : Int} {order : List Id}

/-- A listing that stands at its ranks is contiguous. -/
theorem StandsAs.isContiguous (h : c.StandsAs scope order) :
    Listing.isContiguous (c.list scope) = true := by
  rw [Listing.isContiguous_iff, h.positions, ← h.ids, List.length_map]

/-- Settling a listing that stands at its ranks changes nothing. -/
theorem StandsAs.settle_eq_self (h : c.StandsAs scope order) :
    c.settle now scope.kind (c.list scope) = c :=
  Contents.settle_eq_self now h.isContiguous

/-- In a listing that stands at its ranks an exchange of two entries changes their two rows. -/
theorem row?_settle_swap_ne_iff (h : c.StandsAs scope order) {this other : Member}
    (ht : this ∈ c.list scope) (ho : other ∈ c.list scope) (hne : this ≠ other) (kind : Kind)
    (id : Id) :
    (c.settle now scope.kind ((c.list scope).map (Equiv.swap this other))).row? kind id ≠
        c.row? kind id ↔
      kind = scope.kind ∧ (id = this.id ∨ id = other.id) := by
  rw [settle, settleFrom, row?_moveAll_ne_iff]
  refine and_congr_right fun _ => ?_
  have hcriterion : ∀ m, c.member? scope.kind m.id = some m →
      (Listing.rankIn 0 ((c.list scope).map (Equiv.swap this other)) m ≠ m.sortorder ↔
        m.id = this.id ∨ m.id = other.id) := by
    intro m hm
    refine Listing.rankIn_map_swap_ne_iff (c.nodup_ids_list scope) h.isContiguous ht ho hne ?_
    intro hmem
    obtain ⟨n, hn, hid⟩ := List.mem_map.mp hmem
    obtain rfl := Option.some.inj ((member?_of_mem_list hn).symm.trans (hid ▸ hm))
    exact hn
  constructor
  · rintro ⟨m, hm, hmoved⟩
    obtain rfl := id_of_member? hm
    exact (hcriterion m hm).mp hmoved
  · rintro (rfl | rfl)
    · have hm := member?_of_mem_list ht
      exact ⟨this, hm, (hcriterion this hm).mpr (.inl rfl)⟩
    · have hm := member?_of_mem_list ho
      exact ⟨other, hm, (hcriterion other hm).mpr (.inr rfl)⟩

end Contents

/-! ## The outcomes of an arrow -/

namespace Statement

open Contents

variable {c : Contents} {kind : Kind} {scope : Scope} {id other : Id} {direction : Direction}
  {new : List Id}

/-- Moves an entry of either kind one step up or down. -/
def shiftEntry : Kind → Id → Direction → Int → Statement Bool
  | .category => shiftCategory
  | .field => shiftField

theorem on_shiftEntry_of_none (now : Int) (hnone : c.scope? kind id = none) :
    (shiftEntry kind id direction now).on c = (.error (.notFound kind id), c) := by
  cases kind with
  | category => rw [shiftEntry, on_shiftCategory, Option.map_eq_none_iff.mp hnone]
  | field => rw [shiftEntry, on_shiftField, Option.map_eq_none_iff.mp hnone]

theorem on_shiftEntry (now : Int) (hscope : c.scope? kind id = some scope) :
    (shiftEntry kind id direction now).on c =
      match Listing.exchanged (Listing.ranked (c.list scope)) id direction with
      | none => (.ok false, c.settle now scope.kind (c.list scope))
      | some order => (.ok true,
          (c.settle now scope.kind (c.list scope)).settle now scope.kind order) := by
  cases kind with
  | category =>
    obtain ⟨row, hrow, rfl⟩ := Option.map_eq_some_iff.mp hscope
    rw [shiftEntry, on_shiftCategory, hrow]
    rfl
  | field =>
    obtain ⟨row, hrow, rfl⟩ := Option.map_eq_some_iff.mp hscope
    rw [shiftEntry, on_shiftField, hrow]
    rfl

/-- An arrow that points to a neighbour settles the listing, and then the order with the two entries
exchanged. -/
theorem on_shiftEntry_of_exchanged (now : Int) (hscope : c.scope? kind id = some scope)
    (hx : Listing.Exchanged id other direction ((c.list scope).map Member.id) new) :
    ∃ this ∈ Listing.ranked (c.list scope), ∃ that ∈ Listing.ranked (c.list scope),
      let order := (Listing.ranked (c.list scope)).map (Equiv.swap this that)
      this.id = id ∧ that.id = other ∧ this ≠ that ∧ order.map Member.id = new ∧
        order.Perm ((c.settle now scope.kind (c.list scope)).list scope) ∧
        (shiftEntry kind id direction now).on c =
          (.ok true, (c.settle now scope.kind (c.list scope)).settle now scope.kind order) := by
  have hid := mem_ids_of_scope? hscope
  have hnodup := c.nodup_ids_list scope
  rw [← Listing.map_id_ranked] at hid hnodup hx
  obtain ⟨-, hedge⟩ | ⟨this, ht, that, ho, rfl, hne, hsome, hx'⟩ :=
    Listing.edge_or_exchanged direction hnodup hid
  · exact absurd hedge (hx.edge_ne hnodup)
  · obtain ⟨rfl, rfl⟩ := hx.unique hnodup hx'
    refine ⟨this, ht, that, ho, rfl, rfl, hne, rfl, ?_, ?_⟩
    · -- The order that the exchange settles is one of the listing settled before.
      rw [list_settle now (.refl _)]
      exact Listing.perm_map_swap hnodup.of_map ht ho
    · rw [on_shiftEntry now hscope, hsome]

end Statement

namespace Catalog

open Contents Statement Listing

variable {σ : Type} {k : Circumstances σ} {h : Holdings σ} {kind : Kind} {scope : Scope}
  {id other : Id} {direction : Direction} {order order' : List Id}

/-- Moves an entry of either kind one step up or down. The answer tells whether there was room. -/
def moveEntry : Kind → Id → Direction → Call σ Bool
  | .category => moveCategory
  | .field => moveField

theorem moveEntry_eq_mutate (kind : Kind) (id : Id) (direction : Direction) :
    (moveEntry kind id direction : Call σ Bool) = Call.mutate (shiftEntry kind id direction) := by
  cases kind <;> rfl

/-- An arrow that points past the end of the listing settles the listing. -/
theorem run_moveEntry_of_edge (hheld : k.heldElsewhere = false)
    (hscope : h.contents.scope? kind id = some scope)
    (hedge : edge direction ((h.contents.list scope).map Member.id) = some id) :
    ∃ c', (moveEntry kind id direction).run k h = (.ok false, { h with contents := c' }) ∧
      c'.StandsAs scope ((h.contents.list scope).map Member.id) ∧
      (h.contents.StandsAs scope ((h.contents.list scope).map Member.id) → c' = h.contents) := by
  have hid := mem_ids_of_scope? hscope
  have hnodup := h.contents.nodup_ids_list scope
  rw [← map_id_ranked] at hid hnodup hedge
  obtain ⟨hnone, -⟩ | ⟨_, _, _, _, -, -, -, hx⟩ := edge_or_exchanged direction hnodup hid
  · refine ⟨h.contents.settle k.now scope.kind (h.contents.list scope), ?_,
      standsAs_settle k.now (.refl _), StandsAs.settle_eq_self⟩
    rw [moveEntry_eq_mutate]
    refine Call.run_mutate_of_ok hheld ?_
    rw [on_shiftEntry k.now hscope, hnone]
  · exact absurd hedge (hx.edge_ne hnodup)

/-- An arrow that points to a neighbour exchanges the entry with it. -/
theorem run_moveEntry_of_exchanged (hheld : k.heldElsewhere = false)
    (hscope : h.contents.scope? kind id = some scope)
    (hx : Exchanged id other direction ((h.contents.list scope).map Member.id) order) :
    ∃ c', (moveEntry kind id direction).run k h = (.ok true, { h with contents := c' }) ∧
      c'.scope? kind id = some scope ∧ c'.StandsAs scope order ∧
      (h.contents.StandsAs scope ((h.contents.list scope).map Member.id) → ∀ kind' id',
        c'.row? kind' id' ≠ h.contents.row? kind' id' ↔
          kind' = kind ∧ (id' = id ∨ id' = other)) := by
  obtain ⟨this, ht, that, ho, rfl, rfl, hne, rfl, hperm, hon⟩ :=
    on_shiftEntry_of_exchanged k.now hscope hx
  refine ⟨_, ?_, ?_, standsAs_settle k.now hperm, fun hstands kind' id' => ?_⟩
  · rw [moveEntry_eq_mutate]
    exact Call.run_mutate_of_ok hheld hon
  · rw [scope?_settle, scope?_settle, hscope]
  · rw [ranked_eq_self hstands.isContiguous] at ht ho ⊢
    rw [hstands.settle_eq_self, row?_settle_swap_ne_iff hstands ht ho hne,
      kind_of_scope? hscope]

/-- While nobody else holds the write lock, an entry that exists stays where it is when it is moved
past the end of its listing, and otherwise changes places with its neighbour, which the arrow in the
other direction takes back. -/
theorem moveEntry_outcomes (hheld : k.heldElsewhere = false) (kind : Kind) (id : Id)
    (direction : Direction) :
    (h.contents.scope? kind id = none →
      (moveEntry kind id direction).run k h = (.error (.notFound kind id), h)) ∧
    ∀ scope, h.contents.scope? kind id = some scope →
      let order := (h.contents.list scope).map Member.id
      (edge direction order = some id →
        ∃ c', (moveEntry kind id direction).run k h = (.ok false, { h with contents := c' }) ∧
          c'.StandsAs scope order ∧ (h.contents.StandsAs scope order → c' = h.contents)) ∧
      (edge direction order ≠ some id →
        ∃ other order' c', Exchanged id other direction order order' ∧
          (moveEntry kind id direction).run k h = (.ok true, { h with contents := c' }) ∧
          c'.StandsAs scope order' ∧
          (h.contents.StandsAs scope order → ∀ kind' id',
            c'.row? kind' id' ≠ h.contents.row? kind' id' ↔
              kind' = kind ∧ (id' = id ∨ id' = other)) ∧
          ∀ k' : Circumstances σ, k'.heldElsewhere = false →
            ∃ c'', (moveEntry kind id direction.reverse).run k' { h with contents := c' } =
                (.ok true, { h with contents := c'' }) ∧
              c''.StandsAs scope order) := by
  refine ⟨fun hnone => ?_, fun scope hscope =>
    ⟨run_moveEntry_of_edge hheld hscope, fun hedge => ?_⟩⟩
  · rw [moveEntry_eq_mutate]
    exact Call.run_mutate_of_error hheld (on_shiftEntry_of_none k.now hnone)
  · obtain ⟨other, order', hx⟩ := exists_exchanged direction (h.contents.nodup_ids_list scope)
      (mem_ids_of_scope? hscope) hedge
    obtain ⟨c', hrun, hscope', hstands, hrows⟩ := run_moveEntry_of_exchanged hheld hscope hx
    refine ⟨other, order', c', hx, hrun, hstands, hrows, fun k' hheld' => ?_⟩
    -- The entry and its neighbour stand the other way round now.
    have hback : Exchanged id other direction.reverse ((c'.list scope).map Member.id)
        ((h.contents.list scope).map Member.id) := hstands.ids ▸ hx.reverse
    obtain ⟨c'', hrun', -, hstands', -⟩ :=
      run_moveEntry_of_exchanged (h := { h with contents := c' }) hheld' hscope' hback
    exact ⟨c'', hrun', hstands'⟩

theorem moveEntry_outcomes_disordered :
    let k : Circumstances Unit := ⟨.builtin, 3, false, 6⟩
    let h : Holdings Unit := ⟨.disordered, ()⟩
    let tidy : Holdings Unit := ⟨.sample, ()⟩
    (moveEntry .field 3 .up).run k h = (.error (.notFound .field 3), h) ∧
      (∃ c', (moveEntry .field 1 .up).run k h = (.ok false, { h with contents := c' }) ∧
        c'.StandsAs (.fields (-3)) [1, 2]) ∧
      ∃ other order' c', Exchanged 1 other .down [1, 2] order' ∧
        (moveEntry .category 1 .down).run k tidy = (.ok true, { tidy with contents := c' }) ∧
        (∀ kind' id', c'.row? kind' id' ≠ tidy.contents.row? kind' id' ↔
          kind' = .category ∧ (id' = 1 ∨ id' = other)) ∧
        ∃ c'', (moveEntry .category 1 .up).run k { tidy with contents := c' } =
            (.ok true, { tidy with contents := c'' }) ∧
          c''.StandsAs (.categories ⟨"core", "course", 0⟩) [1, 2] := by
  intro k h tidy
  refine ⟨(moveEntry_outcomes (k := k) (h := h) rfl .field 3 .up).1 rfl, ?_, ?_⟩
  · obtain ⟨c', hrun, hstands, -⟩ :=
      ((moveEntry_outcomes (k := k) (h := h) rfl .field 1 .up).2 (.fields (-3)) rfl).1 rfl
    exact ⟨c', hrun, hstands⟩
  · obtain ⟨other, order', c', hx, hrun, -, hrows, hback⟩ :=
      ((moveEntry_outcomes (k := k) (h := tidy) rfl .category 1 .down).2
        (.categories ⟨"core", "course", 0⟩) rfl).2 (by decide)
    obtain ⟨c'', hrun', hstands⟩ := hback k rfl
    exact ⟨other, order', c', hx, hrun, hrows ⟨rfl, rfl⟩, c'', hrun', hstands⟩

end Catalog

end FieldCatalog
