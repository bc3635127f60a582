import FieldCatalog.Proofs.Listing.Placement

/-!
# Putting an entry elsewhere

An entry is put elsewhere by taking it out of an order and putting it back. The place is looked up
among the others, so the same target means one place for an entry that comes from the front and another
one for an entry that comes from behind. What is reached can be told without places: the entries are the
same, the others follow each other as they did, and the entry stands immediately before its target.

## Main definitions

* `Listing.LacksTarget`: no other entry has the number of the target
* `Listing.Reinserted`: an order after an entry has been put elsewhere

## Main results

* `Listing.reinserted_of_reinsert`: an entry is put where it is sent
* `Listing.Reinserted.unique`: there is one such order
* `Listing.reinsert_outcomes`: what putting an entry elsewhere leads to
-/

namespace FieldCatalog.Listing

variable {members order order' : List Member} {id : Id} {before : Option Id}

/-- There is a target, but it is the entry itself or no entry at all. -/
def LacksTarget (members : List Member) (id : Id) (before : Option Id) : Prop :=
  ∃ target ∈ before, target = id ∨ target ∉ members.map Member.id

instance : Decidable (LacksTarget members id before) :=
  inferInstanceAs (Decidable (∃ target ∈ before, _))

/-- The order `order` has the entries of `members`. Those of other numbers than `id` follow each other
as in `members`, and the entry `id` stands immediately before the target, or last without one. -/
structure Reinserted (members : List Member) (id : Id) (before : Option Id) (order : List Member) :
    Prop where
  perm : order.Perm members
  others : (order.filter fun m => m.id != id) = members.filter fun m => m.id != id
  place : ∃ front moved back, order = front ++ moved :: back ∧ moved.id = id ∧
    (back.map Member.id).head? = before

theorem reinsert_eq_none_iff :
    reinsert members id before = none ↔ LacksTarget members id before := by
  constructor
  · intro hnone
    by_contra hlacks
    have hother : ∀ target, before = some target → target ≠ id ∧ target ∈ members.map Member.id := by
      intro target hbefore
      exact ⟨fun hself => hlacks ⟨target, hbefore, .inl hself⟩,
        by_contra fun hmissing => hlacks ⟨target, hbefore, .inr hmissing⟩⟩
    obtain ⟨order, horder⟩ := exists_reinsert hother
    rw [hnone] at horder
    cases horder
  · rintro ⟨target, rfl, htarget⟩
    refine if_neg fun hany => ?_
    obtain ⟨m, hm, hid⟩ := List.any_eq_true.mp hany
    obtain ⟨hmem, hne⟩ := List.mem_filter.mp hm
    obtain rfl : m.id = target := beq_iff_eq.mp hid
    rcases htarget with hself | hmissing
    · exact bne_iff_ne.mp hne hself
    · exact hmissing (List.mem_map_of_mem hmem)

/-- What is left of an order when the one entry of a number is taken out. -/
theorem filter_middle {front back : List Member} {moved : Member}
    (hn : ((front ++ moved :: back).map Member.id).Nodup) :
    ((front ++ moved :: back).filter fun m => m.id != moved.id) = front ++ back := by
  rw [List.filter_append, List.filter_cons_of_neg (by simp), ← List.filter_append]
  refine List.filter_eq_self.mpr fun m hm => bne_iff_ne.mpr fun hid => ?_
  exact not_mem_of_nodup_middle hn (hid ▸ List.mem_map_of_mem hm)

/-- An entry that is put elsewhere stands where it is sent. -/
theorem reinserted_of_reinsert (hn : (members.map Member.id).Nodup)
    (hid : id ∈ members.map Member.id) (ho : reinsert members id before = some order) :
    Reinserted members id before order := by
  have hperm := perm_of_reinsert hn ho
  obtain ⟨front, back, hcut, rfl, hhead⟩ := exists_cut_of_reinsert ho
  obtain ⟨moved, hmoved⟩ := List.map_eq_singleton_iff.mp (map_id_moving hid)
  rw [hmoved.1] at hperm ⊢
  obtain rfl : moved.id = id := hmoved.2
  exact ⟨hperm, (filter_middle (nodup_ids_of_perm hperm hn)).trans hcut.symm,
    front, moved, back, rfl, rfl, hhead⟩

/-- Putting an entry elsewhere puts its number elsewhere. -/
theorem Reinserted.placedBefore (hn : (members.map Member.id).Nodup)
    (h : Reinserted members id before order) :
    PlacedBefore (members.map Member.id) id before (order.map Member.id) := by
  obtain ⟨hperm, hothers, front, moved, back, rfl, rfl, hhead⟩ := h
  have hnodup := nodup_ids_of_perm hperm hn
  have hself : before ≠ some moved.id := by
    rintro rfl
    refine not_mem_of_nodup_middle hnodup ?_
    rw [List.map_append]
    exact List.mem_append_right _ (List.mem_of_mem_head? hhead)
  rw [PlacedBefore, if_neg hself, ← map_id_others, ← hothers, filter_middle hnodup]
  exact ⟨front.map Member.id, back.map Member.id, List.map_append, List.map_append, hhead⟩

/-- Entries of different numbers are ordered by the order of their numbers. -/
theorem eq_of_map_id (hp : order.Perm order') (hn : (order'.map Member.id).Nodup)
    (h : order.map Member.id = order'.map Member.id) : order = order' := by
  refine List.ext_getElem hp.length_eq fun i hi hi' => ?_
  have hid : order[i].id = order'[i].id := by
    simpa [hi, hi'] using congrArg (fun ids => ids[i]?) h
  exact List.inj_on_of_nodup_map hn (hp.mem_iff.mp (List.getElem_mem hi)) (List.getElem_mem hi') hid

/-- The target determines where an entry can be put. -/
theorem Reinserted.unique (hn : (members.map Member.id).Nodup)
    (h : Reinserted members id before order) (h' : Reinserted members id before order') :
    order = order' :=
  eq_of_map_id (h.perm.trans h'.perm.symm) (nodup_ids_of_perm h'.perm hn)
    (PlacedBefore.unique hn (h.placedBefore hn) (h'.placedBefore hn))

/-- Without the entry there is nothing to put elsewhere. -/
theorem eq_of_reinsert (hid : id ∉ members.map Member.id)
    (ho : reinsert members id before = some order) : order = members := by
  have hne : ∀ m ∈ members, m.id ≠ id := fun m hm he => hid (he ▸ List.mem_map_of_mem hm)
  obtain ⟨front, back, hcut, rfl, -⟩ := exists_cut_of_reinsert ho
  rw [List.find?_eq_none.mpr (by simpa using hne), Option.toList_none, List.nil_append, ← hcut]
  exact List.filter_eq_self.mpr fun m hm => bne_iff_ne.mpr (hne m hm)

/-- What putting an entry elsewhere leads to. There is no order if the target is missing. Otherwise the
entries stay as they are if the entry is missing, and if it is not, there is one order in which it stands
before its target and the others follow each other as they did, which is the answer. -/
theorem reinsert_outcomes (hn : (members.map Member.id).Nodup) (id : Id) (before : Option Id) :
    (reinsert members id before = none ↔ LacksTarget members id before) ∧
    (¬ LacksTarget members id before → id ∉ members.map Member.id →
      reinsert members id before = some members) ∧
    (¬ LacksTarget members id before → id ∈ members.map Member.id →
      ∃ order, reinsert members id before = some order ∧ Reinserted members id before order ∧
        ∀ order', Reinserted members id before order' → order' = order) := by
  have hsome : ¬ LacksTarget members id before → ∃ order, reinsert members id before = some order :=
    fun htarget => Option.ne_none_iff_exists'.mp fun hnone => htarget (reinsert_eq_none_iff.mp hnone)
  refine ⟨reinsert_eq_none_iff, fun htarget hid => ?_, fun htarget hid => ?_⟩
  · obtain ⟨order, horder⟩ := hsome htarget
    rw [horder, eq_of_reinsert hid horder]
  · obtain ⟨order, horder⟩ := hsome htarget
    have hplace := reinserted_of_reinsert hn hid horder
    exact ⟨order, horder, hplace, fun order' h' => h'.unique hn hplace⟩

/-- Entries at positions with gaps and repetitions: the last one is put before the first one, the first
one is put last, a number that is not among them is put nowhere, and nothing stands before itself. -/
theorem reinsert_outcomes_sample :
    let members : List Member := [⟨3, -4⟩, ⟨1, 7⟩, ⟨2, 7⟩]
    reinsert members 2 (some 3) = some [⟨2, 7⟩, ⟨3, -4⟩, ⟨1, 7⟩] ∧
    reinsert members 3 none = some [⟨1, 7⟩, ⟨2, 7⟩, ⟨3, -4⟩] ∧
    reinsert members 5 (some 1) = some members ∧
    reinsert members 1 (some 1) = none := by
  intro members
  have hn : (members.map Member.id).Nodup := by decide
  have hfirst : Reinserted members 2 (some 3) [⟨2, 7⟩, ⟨3, -4⟩, ⟨1, 7⟩] :=
    ⟨by decide, by decide, [], _, _, rfl, rfl, rfl⟩
  have hlast : Reinserted members 3 none [⟨1, 7⟩, ⟨2, 7⟩, ⟨3, -4⟩] :=
    ⟨by decide, by decide, [_, _], _, [], rfl, rfl, rfl⟩
  refine ⟨?_, ?_, ?_, ?_⟩
  · obtain ⟨order, horder, -, hunique⟩ :=
      (reinsert_outcomes hn 2 (some 3)).2.2 (by decide) (by decide)
    rw [horder, hunique _ hfirst]
  · obtain ⟨order, horder, -, hunique⟩ :=
      (reinsert_outcomes hn 3 none).2.2 (by decide) (by decide)
    rw [horder, hunique _ hlast]
  · exact (reinsert_outcomes hn 5 (some 1)).2.1 (by decide) (by decide)
  · exact (reinsert_outcomes hn 1 (some 1)).1.mpr (by decide)

end FieldCatalog.Listing
