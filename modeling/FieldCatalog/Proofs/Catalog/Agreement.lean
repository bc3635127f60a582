import FieldCatalog.Proofs.Catalog.Stepping

/-!
# Arrows as drags

An arrow and a drag work out their orders in different ways. The arrow mends the listing and then
exchanges the positions of two entries; the drag takes an entry out, puts it back and writes the ranks
that have changed. Still, an arrow up is a drag before the entry above, and an arrow down is a drag
before the entry that follows the next one, or to the end: both leave the listing in one order. When
the listing has stood at its ranks before, they even write the same rows.

## Main definitions

* `Catalog.dragEntry`: the drags of categories and of fields within their listing
* `Call.Agree`: an arrow and a drag that lead to the same listing
* `Contents.gapped`: positive numbers, at positions that no catalog would have left behind

## Main results

* `Listing.placedBefore_up`, `Listing.placedBefore_down`: the orders of the arrows as those of drags
* `Contents.settle_congr`: of the order that is settled only the numbers matter
* `Catalog.moveEntry_agree_dragEntry`: arrows and drags agree
-/

namespace FieldCatalog

/-- Categories with gaps and equal positions, and fields at their ranks. -/
def Contents.gapped : Contents where
  categories := ⟨[⟨1, "General", "", ⟨"core", "course", 0⟩, 7, 5, 5⟩,
    ⟨2, "Planning", "", ⟨"core", "course", 0⟩, 7, 5, 5⟩,
    ⟨3, "Grading", "", ⟨"core", "course", 0⟩, -4, 5, 5⟩], by decide⟩
  fields := ⟨[⟨1, "room", "Room", "text", "", 1, 0, "\x7b\x7d", 5, 5⟩,
    ⟨2, "start", "Start", "date", "", 1, 1, "\x7b\x7d", 5, 5⟩], by decide⟩

/-! ## Orders told by numbers -/

namespace Listing

variable {members order order' : List Member} {id : Id} {before : Option Id}

/-- A number that is taken out of an order can be put back anywhere. -/
theorem placedBefore_of_split {front back front' back' : List Id}
    (hn : (front ++ id :: back).Nodup) (h : front ++ back = front' ++ back') :
    PlacedBefore (front ++ id :: back) id back'.head? (front' ++ id :: back') := by
  have hnot := (List.nodup_cons.mp (List.nodup_middle.mp hn)).1
  have hself : back'.head? ≠ some id := fun he =>
    hnot (h ▸ List.mem_append_right front' (List.mem_of_mem_head? he))
  have hcut : (front ++ id :: back).filter (· ≠ id) = front' ++ back' := by
    rw [List.filter_append, List.filter_cons_of_neg (by simp), ← List.filter_append, ← h]
    exact List.filter_eq_self.mpr fun other hother => by
      simpa using fun he : other = id => hnot (he ▸ hother)
  rw [PlacedBefore, if_neg hself]
  exact ⟨front', back', hcut, rfl, rfl⟩

/-- An arrow up puts its entry before the one above. -/
theorem placedBefore_up {front back : List Id} {above : Id}
    (hn : (front ++ above :: id :: back).Nodup) :
    PlacedBefore (front ++ above :: id :: back) id (some above) (front ++ id :: above :: back) := by
  have hassoc : front ++ above :: id :: back = (front ++ [above]) ++ id :: back := by simp
  rw [hassoc] at hn ⊢
  have hcut : front ++ [above] ++ back = front ++ above :: back := by simp
  exact placedBefore_of_split hn hcut

/-- An arrow down puts its entry before what follows the one below. -/
theorem placedBefore_down {front back : List Id} {below : Id}
    (hn : (front ++ id :: below :: back).Nodup) :
    PlacedBefore (front ++ id :: below :: back) id back.head? (front ++ below :: id :: back) := by
  have hassoc : front ++ below :: id :: back = (front ++ [below]) ++ id :: back := by simp
  rw [hassoc]
  exact placedBefore_of_split hn (by simp)

theorem rankedFrom_congr {rank : Int} (h : order.map Member.id = order'.map Member.id) :
    rankedFrom rank order = rankedFrom rank order' := by
  -- Induction on the one order, for every rank; the other one has as many entries.
  induction order generalizing rank order' with
  | nil => rw [List.map_eq_nil_iff.mp h.symm]
  | cons m ms ih =>
    obtain ⟨n, ns, rfl, hid, hrest⟩ := List.map_eq_cons_iff.mp h.symm
    rw [rankedFrom, rankedFrom, ih hrest.symm, hid]

/-- The entries at their ranks are determined by the order of their numbers. -/
theorem ranked_congr (h : order.map Member.id = order'.map Member.id) :
    ranked order = ranked order' :=
  rankedFrom_congr h

/-- The place of an entry is determined by the order of the numbers. -/
theorem rankIn_congr {rank : Int} (h : order.map Member.id = order'.map Member.id) :
    rankIn rank order = rankIn rank order' := by
  induction order generalizing rank order' with
  | nil => rw [List.map_eq_nil_iff.mp h.symm]
  | cons m ms ih =>
    obtain ⟨n, ns, rfl, hid, hrest⟩ := List.map_eq_cons_iff.mp h.symm
    funext k
    rw [rankIn, rankIn, ih hrest.symm, hid]

end Listing

/-- Of the order that is settled only the numbers matter. -/
theorem Contents.settle_congr (c : Contents) (now : Int) (kind : Kind) {order order' : List Member}
    (h : order.map Member.id = order'.map Member.id) :
    c.settle now kind order = c.settle now kind order' := by
  rw [settle, settle, settleFrom, settleFrom, Listing.rankIn_congr h]

/-! ## Arrows and drags of either kind -/

/-- A positive number that is listed is a target. -/
theorem Contents.Positive.target_of_mem_list {c : Contents} (hp : c.Positive) {scope : Scope}
    {id : Id} (hid : id ∈ (c.list scope).map Member.id) :
    Listing.target (some id) = some id := by
  obtain ⟨m, hm, rfl⟩ := List.mem_map.mp hid
  have hpos : 1 ≤ m.id := by
    cases scope with
    | categories area =>
      obtain ⟨row, hrow, -, rfl⟩ := mem_list_categories.mp hm
      exact hp.categories row hrow
    | fields home =>
      obtain ⟨row, hrow, -, rfl⟩ := mem_list_fields.mp hm
      exact hp.fields row hrow
  have hne : m.id ≠ Listing.noTarget := Int.ne_of_gt (Int.lt_of_lt_of_le Int.zero_lt_one hpos)
  simp [Listing.target, Option.filter, hne]

/-- A drag within a category is aimed at this category. -/
theorem Contents.aim_eq_own {c : Contents} {field : Field} {home before : Option Id}
    (hhome : ∀ categoryid ∈ home, field.categoryid = categoryid)
    (hb : ∀ target, before = some target →
      ∃ other, c.field? target = some other ∧ other.categoryid = field.categoryid) :
    c.aim field home before = field.categoryid := by
  cases home with
  | some categoryid => exact (hhome categoryid rfl).symm
  | none =>
    cases before with
    | none => rfl
    | some target =>
      obtain ⟨other, hother, hcategory⟩ := hb target rfl
      rw [aim_some hother]
      exact hcategory

/-- A field that is carried to a category is listed there, and the others where they have been. -/
theorem Contents.Carried.scope?_eq {c c' : Contents} {field : Field} {home : Id} {before : Option Id}
    (h : c.Carried field home before c') (id : Id) : c'.scope? .field id =
      if id = field.id then some (.fields home) else c.scope? .field id := by
  rw [scope?, scope?]
  split
  · next hid =>
    have hlies := congrArg (Option.map Field.scope) h.lies
    rwa [Option.map_map, Option.map_some, ← hid] at hlies
  · next hid =>
    have hother := congrArg (Option.map Field.scope) (h.others id hid)
    rwa [Option.map_map, Option.map_map] at hother

namespace Statement

open Contents

variable {c : Contents} {kind : Kind} {scope : Scope} {id : Id} {home before : Option Id}

/-- Puts an entry of either kind before another one, or last. A field may be sent to a category. -/
def repositionEntry : Kind → Id → Option Id → Option Id → Int → Statement Unit
  | .category, id, _, before => repositionCategory id before
  | .field, id, home, before => repositionField id home before

/-- A drag within a listing settles the order with the entry before its target. -/
theorem on_repositionEntry (now : Int) (hscope : c.scope? kind id = some scope)
    (hhome : ∀ categoryid ∈ home, scope = .fields categoryid)
    (hb : ∀ target, before = some target → target ∈ (c.list scope).map Member.id) :
    ∃ order, order.Perm (c.list scope) ∧
      Listing.PlacedBefore ((c.list scope).map Member.id) id (Listing.target before)
        (order.map Member.id) ∧
      (repositionEntry kind id home before now).on c =
        (.ok (), c.settle now scope.kind order) := by
  have hid := mem_ids_of_scope? hscope
  have hnodup := c.nodup_ids_list scope
  cases kind with
  | category =>
    obtain ⟨row, hrow, rfl⟩ := Option.map_eq_some_iff.mp hscope
    have hadmits : c.admits row before = .ok () := by
      refine admits_eq_ok_iff.mpr fun target ht => ?_
      obtain ⟨m, hm, rfl⟩ := List.mem_map.mp (hb target ht)
      obtain ⟨other, hother, harea, rfl⟩ := mem_list_categories.mp hm
      exact ⟨other, category?_eq_some_iff.mpr ⟨hother, rfl⟩, harea⟩
    obtain ⟨order, ho, hon⟩ := on_repositionCategory_of_ok now hrow hadmits
    exact ⟨order, Listing.perm_of_dragged hnodup ho, Listing.placedBefore_of_dragged hid ho, hon⟩
  | field =>
    obtain ⟨row, hrow, rfl⟩ := Option.map_eq_some_iff.mp hscope
    obtain ⟨-, rfl⟩ := field?_eq_some_iff.mp hrow
    have hstands : ∀ target, before = some target →
        ∃ other, c.field? target = some other ∧ other.categoryid = row.categoryid := by
      intro target ht
      obtain ⟨m, hm, rfl⟩ := List.mem_map.mp (hb target ht)
      obtain ⟨other, hother, hcategory, rfl⟩ := mem_list_fields.mp hm
      exact ⟨other, field?_eq_some_iff.mpr ⟨hother, rfl⟩, hcategory⟩
    -- Whether its category is named or not, the field is to stay in it.
    have haim : c.aim row home before = row.categoryid :=
      aim_eq_own (fun categoryid hnamed => Scope.fields.inj (hhome categoryid hnamed)) hstands
    have hdestination : c.destination row home before = .ok row.categoryid := by
      rw [destination_eq_reachable (by rwa [haim]), haim]
      exact if_pos rfl
    obtain ⟨hon, -, -⟩ := on_repositionField_of_ok now hrow hdestination
    obtain ⟨order, ho, hcarry⟩ := on_carryField_self now hrow fun target ht =>
      hb target (Option.filter_eq_some_iff.mp ht).1
    exact ⟨order, Listing.perm_of_dragged hnodup ho, Listing.placedBefore_of_dragged hid ho,
      hon.trans hcarry⟩

end Statement

namespace Call

variable {σ : Type} {k k' : Circumstances σ} {h : Holdings σ} {scope : Scope}

/-- An arrow and a drag, which may run at different times, lead to the same listing. At one time they
lead to the same rows altogether, if the listing has stood at its ranks. -/
structure Agree (arrow : Call σ Bool) (drag : Call σ Unit) (k k' : Circumstances σ) (h : Holdings σ)
    (scope : Scope) : Prop where
  list : (arrow.run k h).2.contents.list scope = (drag.run k' h).2.contents.list scope
  rows : k.now = k'.now → Listing.isContiguous (h.contents.list scope) = true →
    (arrow.run k h).2 = (drag.run k' h).2
  answers : k.heldElsewhere = false → (arrow.run k h).1 = .ok true ∧ (drag.run k' h).1 = .ok ()

end Call

namespace Catalog

open Contents Statement Listing

variable {σ : Type} {k k' : Circumstances σ} {h : Holdings σ} {kind : Kind} {scope : Scope}
  {id other : Id} {direction : Direction} {home before : Option Id} {new : List Id}

/-- Puts an entry of either kind before another one, or last. A field may be sent to a category. -/
def dragEntry : Kind → Id → Option Id → Option Id → Call σ Unit
  | .category, id, _, before => dragCategory id before
  | .field, id, home, before => dragField id home before

theorem dragEntry_eq_mutate (kind : Kind) (id : Id) (home before : Option Id) :
    (dragEntry kind id home before : Call σ Unit) =
      Call.mutate (repositionEntry kind id home (target before)) := by
  cases kind <;> rfl

/-- An arrow that points to a neighbour agrees with the drag that leads to the same order. -/
theorem agree_of_placedBefore (hheld : k.heldElsewhere = k'.heldElsewhere)
    (hscope : h.contents.scope? kind id = some scope)
    (hhome : ∀ categoryid ∈ home, scope = .fields categoryid)
    (hx : Exchanged id other direction ((h.contents.list scope).map Member.id) new)
    (hplaced : PlacedBefore ((h.contents.list scope).map Member.id) id (target before) new)
    (hb : ∀ t, target before = some t → t ∈ (h.contents.list scope).map Member.id) :
    Call.Agree (moveEntry kind id direction) (dragEntry kind id home before) k k' h scope := by
  obtain ⟨this, -, that, -, -, -, -, hids, hperm, hshift⟩ :=
    on_shiftEntry_of_exchanged k.now hscope hx
  obtain ⟨order', hperm', hplaced', hreposition⟩ := on_repositionEntry k'.now hscope hhome hb
  -- The target determines the order of the drag, so that both settle the same numbers in the end.
  rw [target_target] at hplaced'
  have hsame := hids.trans (hplaced.unique (h.contents.nodup_ids_list scope) hplaced')
  rw [moveEntry_eq_mutate, dragEntry_eq_mutate]
  by_cases hlock : k.heldElsewhere = true
  · -- Neither gets past the lock.
    have harrow := Call.run_mutate (shiftEntry kind id direction) k h
    have hdrag := Call.run_mutate (repositionEntry kind id home (target before)) k' h
    rw [if_pos hlock] at harrow
    rw [if_pos (hheld ▸ hlock)] at hdrag
    refine ⟨by rw [harrow, hdrag], fun _ _ => by rw [harrow, hdrag], fun hfree => ?_⟩
    rw [hfree] at hlock
    cases hlock
  · have hfree : k.heldElsewhere = false := Bool.eq_false_iff.mpr hlock
    have harrow := Call.run_mutate_of_ok hfree hshift
    have hdrag := Call.run_mutate_of_ok (hheld ▸ hfree) hreposition
    refine ⟨?_, fun hnow hc => ?_, fun _ => ⟨by rw [harrow], by rw [hdrag]⟩⟩
    · rw [harrow, hdrag]
      exact (list_settle k.now hperm).trans
        ((ranked_congr hsame).trans (list_settle k'.now hperm').symm)
    · -- A listing at its ranks needs no mending, so that the arrow settles once as the drag does.
      have hself : h.contents.settle k.now scope.kind (h.contents.list scope) = h.contents :=
        settleFrom_eq_self (fun _ hm => member?_of_mem_list hm) (h.contents.nodup_ids_list scope) hc
      rw [harrow, hdrag, hself, ← hnow, settle_congr _ _ _ hsame]

/-- An arrow up agrees with the drag before the entry above, and an arrow down with the drag before
the entry that follows the one below, or with the drag to the end if none does. -/
theorem moveEntry_agree_dragEntry (hp : h.contents.Positive)
    (hheld : k.heldElsewhere = k'.heldElsewhere) (hscope : h.contents.scope? kind id = some scope)
    (hhome : ∀ categoryid ∈ home, scope = .fields categoryid) :
    let order := (h.contents.list scope).map Member.id
    (∀ front above back, order = front ++ above :: id :: back →
      Call.Agree (moveEntry kind id .up) (dragEntry kind id home (some above)) k k' h scope) ∧
    (∀ front below next back, order = front ++ id :: below :: next :: back →
      Call.Agree (moveEntry kind id .down) (dragEntry kind id home (some next)) k k' h scope) ∧
    ∀ front below, order = front ++ [id, below] → ∀ before, target before = none →
      Call.Agree (moveEntry kind id .down) (dragEntry kind id home before) k k' h scope := by
  intro order
  have hn : order.Nodup := h.contents.nodup_ids_list scope
  refine ⟨fun front above back horder => ?_, fun front below next back horder => ?_,
    fun front below horder before hbefore => ?_⟩
  · have hmem : above ∈ order := by simp [horder]
    have htarget := hp.target_of_mem_list hmem
    have hx : Exchanged id above .up order (front ++ id :: above :: back) := horder ▸ .up front back
    refine agree_of_placedBefore hheld hscope hhome hx ?_ fun t ht => ?_
    · rw [htarget]
      change PlacedBefore order id (some above) _
      rw [horder] at hn ⊢
      exact placedBefore_up hn
    · exact Option.some.inj (htarget.symm.trans ht) ▸ hmem
  · have hmem : next ∈ order := by simp [horder]
    have htarget := hp.target_of_mem_list hmem
    have hx : Exchanged id below .down order (front ++ below :: id :: next :: back) :=
      horder ▸ .down front (next :: back)
    refine agree_of_placedBefore hheld hscope hhome hx ?_ fun t ht => ?_
    · rw [htarget]
      change PlacedBefore order id (some next) _
      rw [horder] at hn ⊢
      exact placedBefore_down hn
    · exact Option.some.inj (htarget.symm.trans ht) ▸ hmem
  · have hx : Exchanged id below .down order (front ++ [below, id]) := horder ▸ .down front []
    refine agree_of_placedBefore hheld hscope hhome hx ?_ fun t ht => ?_
    · rw [hbefore]
      change PlacedBefore order id none _
      rw [horder] at hn ⊢
      exact placedBefore_down hn
    · cases hbefore.symm.trans ht

theorem moveEntry_agree_dragEntry_gapped :
    let k : Circumstances Unit := ⟨.builtin, 3, false, 6⟩
    let k' : Circumstances Unit := ⟨.builtin, 1, false, 8⟩
    let h : Holdings Unit := ⟨.gapped, ()⟩
    let area : Scope := .categories ⟨"core", "course", 0⟩
    Call.Agree (moveEntry .category 1 .up) (dragEntry .category 1 none (some 3)) k k' h area ∧
      Call.Agree (moveEntry .category 3 .down) (dragEntry .category 3 none (some 2)) k k' h area ∧
      Call.Agree (moveEntry .field 1 .down) (dragEntry .field 1 (some 1) (some 0)) k k' h
        (.fields 1) ∧
      ((moveEntry .field 1 .down).run k h).2 =
        ((dragEntry .field 1 none none).run k h).2 := by
  intro k k' h area
  have hp : h.contents.Positive := ⟨by decide, by decide⟩
  have hnone {scope : Scope} : ∀ categoryid ∈ (none : Option Id), scope = .fields categoryid :=
    fun _ hnone => absurd hnone (Option.not_mem_none _)
  have hone : ∀ categoryid ∈ some 1, Scope.fields 1 = .fields categoryid :=
    fun _ hone => Option.some.inj hone ▸ rfl
  have htidy : Call.Agree (moveEntry .field 1 .down) (dragEntry .field 1 none none) k k h
      (.fields 1) := (moveEntry_agree_dragEntry hp rfl rfl hnone).2.2 [] 2 rfl none rfl
  refine ⟨?_, ?_, ?_, htidy.rows rfl rfl⟩
  · exact (moveEntry_agree_dragEntry hp (by rfl) rfl hnone).1 [] 3 [2] rfl
  · exact (moveEntry_agree_dragEntry hp (by rfl) rfl hnone).2.1 [] 1 2 [] rfl
  · exact (moveEntry_agree_dragEntry hp (by rfl) rfl hone).2.2 [] 2 rfl (some 0) rfl

end Catalog

end FieldCatalog
