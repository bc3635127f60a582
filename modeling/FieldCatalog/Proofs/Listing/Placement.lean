import FieldCatalog.Proofs.Listing.Resequencing
import Mathlib.Data.List.Basic

/-!
# Where an entry is placed

The orders that drags and arrows aim at, told by the numbers of the entries alone. A drag takes a
number out and puts it back before another one, or last; an arrow exchanges a number with its
neighbour. The operations work out their orders from positions and entries, and these are the orders
they arrive at.

## Main definitions

* `Listing.PlacedBefore`: an order after a number has been put before another one, or last
* `Listing.Exchanged`: an order after a number has changed places with its neighbour
* `Listing.edge`: the number that has no neighbour in a direction
* `Contents.StandsAs`: a listing stands in an order, at the positions `0, 1, ..., n - 1`

## Main results

* `Listing.placedBefore_of_dragged`, `Listing.PlacedBefore.unique`: the order of a drag
* `Listing.edge_or_exchanged`: the order of an arrow
* `Listing.Exchanged.reverse`, `Listing.Exchanged.unique`: an arrow can be taken back
* `Contents.standsAs_settle`: a settled listing stands in the settled order
-/

namespace FieldCatalog

namespace Listing

variable {members order : List Member} {id : Id} {before : Option Id} {direction : Direction}

/-! ## Putting a number elsewhere -/

/-- The order `new` is the order `old` with a number taken out and put back immediately before
another one, last without a target, and the same order when the target is the number itself. -/
def PlacedBefore (old : List Id) (id : Id) (before : Option Id) (new : List Id) : Prop :=
  if before = some id then new = old
  else ∃ front back, old.filter (· ≠ id) = front ++ back ∧ new = front ++ id :: back ∧
    back.head? = before

/-- What is left of the numbers when one is taken out. -/
theorem map_id_others (members : List Member) (id : Id) :
    (members.filter fun m => m.id != id).map Member.id =
      (members.map Member.id).filter (· ≠ id) := by
  rw [List.filter_map]
  refine congrArg (List.map Member.id) (List.filter_congr fun m _ => ?_)
  simp [bne, beq_eq_decide]

/-- The entry of a number is found, and it is the only one. -/
theorem map_id_moving (h : id ∈ members.map Member.id) :
    (members.find? fun m => m.id == id).toList.map Member.id = [id] := by
  cases hfind : members.find? fun m => m.id == id with
  | none =>
    obtain ⟨m, hm, rfl⟩ := List.mem_map.mp h
    have := List.find?_eq_none.mp hfind m hm
    simp at this
  | some m =>
    have hid : m.id = id := by simpa using List.find?_some hfind
    simp [hid]

/-- Putting an entry elsewhere puts its number elsewhere. -/
theorem placedBefore_of_reinsert (hid : id ∈ members.map Member.id) (hne : before ≠ some id)
    (ho : reinsert members id before = some order) :
    PlacedBefore (members.map Member.id) id before (order.map Member.id) := by
  obtain ⟨front, back, hcut, rfl, hhead⟩ := exists_cut_of_reinsert ho
  rw [PlacedBefore, if_neg hne, ← map_id_others, hcut]
  refine ⟨front.map Member.id, back.map Member.id, List.map_append, ?_, hhead⟩
  rw [List.map_append, List.map_append, map_id_moving hid]
  rfl

/-- A drag puts the number of the entry before its target. -/
theorem placedBefore_of_dragged (hid : id ∈ members.map Member.id)
    (ho : dragged members id before = some order) :
    PlacedBefore (members.map Member.id) id before (order.map Member.id) := by
  unfold dragged at ho
  split at ho
  · next hself =>
    obtain rfl := Option.some.inj ho
    rw [PlacedBefore, if_pos hself]
  · next hne => exact placedBefore_of_reinsert hid hne ho

/-- Where the number has stood before does not matter, unless it is put before itself. -/
theorem PlacedBefore.of_filter {old old' new : List Id} (hne : before ≠ some id)
    (h : old.filter (· ≠ id) = old'.filter (· ≠ id)) (hp : PlacedBefore old id before new) :
    PlacedBefore old' id before new := by
  rw [PlacedBefore, if_neg hne] at hp ⊢
  rwa [← h]

/-- An order in which a number occurs once is cut by it in one place. -/
theorem cut_unique {front front' back back' : List Id} (hn : (front ++ id :: back).Nodup)
    (h : front ++ id :: back = front' ++ id :: back') : front = front' ∧ back = back' := by
  have hnot := (List.nodup_cons.mp (List.nodup_middle.mp hn)).1
  rw [List.mem_append, not_or] at hnot
  obtain ⟨hfront, -, hback⟩ := (List.append_cons_inj_of_notMem hnot.1 hnot.2).mp h
  exact ⟨hfront, hback⟩

/-- A target determines the order of a drag. -/
theorem PlacedBefore.unique {old new new' : List Id} (hn : old.Nodup)
    (h : PlacedBefore old id before new) (h' : PlacedBefore old id before new') : new = new' := by
  unfold PlacedBefore at h h'
  split at h
  · next hself =>
    rw [if_pos hself] at h'
    exact h.trans h'.symm
  · next hself =>
    rw [if_neg hself] at h'
    obtain ⟨front, back, hcut, rfl, hhead⟩ := h
    obtain ⟨front', back', hcut', rfl, hhead'⟩ := h'
    -- Both drags cut the other numbers in two, and the second parts begin alike.
    have heq : front ++ back = front' ++ back' := hcut.symm.trans hcut'
    have hothers : (front ++ back).Nodup := hcut ▸ hn.filter _
    cases back with
    | nil =>
      obtain rfl : back' = [] := List.head?_eq_none_iff.mp (hhead'.trans hhead.symm)
      rw [List.append_cancel_right heq]
    | cons target back =>
      obtain ⟨rest, rfl⟩ := List.head?_eq_some_iff.mp (hhead'.trans hhead.symm)
      obtain ⟨rfl, rfl⟩ := cut_unique hothers heq
      rfl

/-! ## Exchanging neighbours -/

/-- The order `new` is the order `old` with the number `id` and its neighbour `other` in a direction
exchanged. -/
inductive Exchanged (id other : Id) : Direction → List Id → List Id → Prop
  | up (front back : List Id) :
      Exchanged id other .up (front ++ other :: id :: back) (front ++ id :: other :: back)
  | down (front back : List Id) :
      Exchanged id other .down (front ++ id :: other :: back) (front ++ other :: id :: back)

/-- The number at the end of an order that a direction leads to. -/
def edge : Direction → List Id → Option Id
  | .up, order => order.head?
  | .down, order => order.getLast?

/-- An exchange is taken back by the exchange in the other direction. -/
theorem Exchanged.reverse {other : Id} {old new : List Id}
    (h : Exchanged id other direction old new) : Exchanged id other direction.reverse new old := by
  cases h with
  | up front back => exact .down front back
  | down front back => exact .up front back

/-- A number has at most one neighbour in a direction. -/
theorem Exchanged.unique {other other' : Id} {old new new' : List Id} (hn : old.Nodup)
    (h : Exchanged id other direction old new) (h' : Exchanged id other' direction old new') :
    other = other' ∧ new = new' := by
  -- The number occurs once in the order, so both exchanges cut the order in the same place.
  cases h with
  | up front back =>
    generalize hold : front ++ other :: id :: back = old at hn h'
    cases h' with
    | up front' back' =>
      have hcut : (front ++ [other]) ++ id :: back = (front' ++ [other']) ++ id :: back' := by
        simpa using hold
      have hn' : ((front ++ [other]) ++ id :: back).Nodup := by
        rw [hcut]
        simpa using hn
      obtain ⟨hfront, rfl⟩ := cut_unique hn' hcut
      obtain ⟨rfl, hother⟩ := List.append_inj' hfront rfl
      obtain rfl : other = other' := by simpa using hother
      exact ⟨rfl, rfl⟩
  | down front back =>
    generalize hold : front ++ id :: other :: back = old at hn h'
    cases h' with
    | down front' back' =>
      obtain ⟨rfl, hback⟩ := cut_unique (hold ▸ hn) hold
      obtain ⟨rfl, rfl⟩ := List.cons.inj hback
      exact ⟨rfl, rfl⟩

/-- A number at the end of an order has no neighbour there. -/
theorem Exchanged.edge_ne {other : Id} {old new : List Id} (hn : old.Nodup)
    (h : Exchanged id other direction old new) : edge direction old ≠ some id := by
  cases h with
  | up front back =>
    -- The neighbour, or what stands before it, comes first.
    intro hedge
    cases front with
    | nil =>
      obtain rfl : other = id := by simpa [edge] using hedge
      simp at hn
    | cons first front =>
      obtain rfl : first = id := by simpa [edge] using hedge
      simp at hn
  | down front back =>
    -- The last number of the order is the neighbour or stands behind it.
    intro hedge
    rcases List.eq_nil_or_concat back with rfl | ⟨back, last, rfl⟩
    · obtain rfl : other = id := by simpa [edge] using hedge
      simp [List.nodup_append] at hn
    · have hassoc : front ++ id :: other :: back.concat last =
          (front ++ id :: other :: back) ++ [last] := by simp
      rw [edge, hassoc, List.getLast?_concat] at hedge
      obtain rfl : last = id := Option.some.inj hedge
      simp [List.nodup_append] at hn

theorem not_mem_of_nodup_middle {front back : List Member} {this : Member}
    (hn : ((front ++ this :: back).map Member.id).Nodup) :
    this.id ∉ (front ++ back).map Member.id := by
  rw [List.map_append, List.map_cons] at hn
  rw [List.map_append]
  exact (List.nodup_cons.mp (List.nodup_middle.mp hn)).1

theorem findIdx?_middle {front back : List Member} {this : Member}
    (hn : ((front ++ this :: back).map Member.id).Nodup) :
    (front ++ this :: back).findIdx? (fun m => m.id == this.id) = some front.length := by
  have hfront : front.findIdx? (fun m => m.id == this.id) = none := by
    refine List.findIdx?_eq_none_iff.mpr fun m hm => beq_eq_false_iff_ne.mpr fun he => ?_
    exact not_mem_of_nodup_middle hn (he ▸ List.mem_map_of_mem (List.mem_append_left back hm))
  rw [List.findIdx?_append, hfront, List.findIdx?_cons]
  simp

theorem neighbours?_of_getElem? {this other : Member} {index : Nat} (next : Nat)
    (hthis : members[index]? = some this) (hother : members[next]? = some other)
    (hnext : (index : Int) + direction.offset = next) :
    neighbours? members index direction = some (this, other) := by
  have hcast : (index : Int) + direction.offset = Int.ofNat next := hnext
  simp only [neighbours?, hthis, hcast, hother, Option.map_some]

/-- Behind the last entry there is no neighbour. -/
theorem neighbours?_down_last (front : List Member) (this : Member) :
    neighbours? (front ++ [this]) front.length .down = none := by
  refine Option.eq_none_iff_forall_ne_some.mpr fun pair hpair => ?_
  obtain ⟨-, next, hnext, hother⟩ := neighbours?_eq_some hpair
  have hlt := (List.getElem?_eq_some_iff.mp hother).1
  simp only [Direction.offset, List.length_append, List.length_singleton] at hnext hlt
  omega

/-- Entries that are neither of two exchanged ones stay where they are. -/
theorem map_swap_eq_self {this other : Member} (h : ∀ m ∈ members, m ≠ this ∧ m ≠ other) :
    members.map (Equiv.swap this other) = members :=
  (List.map_congr_left fun m hm => Equiv.swap_apply_of_ne_of_ne (h m hm).1 (h m hm).2).trans
    (List.map_id _)

/-- Two entries that stand one behind the other change places. -/
theorem map_swap_adjacent {front back : List Member} {first second : Member}
    (hn : (front ++ first :: second :: back).Nodup) :
    (front ++ first :: second :: back).map (Equiv.swap first second) =
      front ++ second :: first :: back := by
  simp only [List.nodup_append, List.nodup_cons, List.mem_cons, not_or] at hn
  obtain ⟨-, ⟨⟨-, hfirst⟩, hsecond, -⟩, hfront⟩ := hn
  have hf : front.map (Equiv.swap first second) = front :=
    map_swap_eq_self fun m hm =>
      ⟨hfront m hm first (.inl rfl), hfront m hm second (.inr (.inl rfl))⟩
  have hb : back.map (Equiv.swap first second) = back :=
    map_swap_eq_self fun m hm => ⟨fun e => hfirst (e ▸ hm), fun e => hsecond (e ▸ hm)⟩
  rw [List.map_append, List.map_cons, List.map_cons, hf, hb, Equiv.swap_apply_left,
    Equiv.swap_apply_right]

/-- An arrow finds its entry at the end of the listing, or exchanges it with its neighbour. -/
theorem edge_or_exchanged (direction : Direction) (hn : (members.map Member.id).Nodup)
    (hid : id ∈ members.map Member.id) :
    (exchanged members id direction = none ∧ edge direction (members.map Member.id) = some id) ∨
      ∃ this ∈ members, ∃ other ∈ members, this.id = id ∧ this ≠ other ∧
        exchanged members id direction = some (members.map (Equiv.swap this other)) ∧
        Exchanged id other.id direction (members.map Member.id)
          ((members.map (Equiv.swap this other)).map Member.id) := by
  obtain ⟨this, hthis, rfl⟩ := List.mem_map.mp hid
  obtain ⟨front, back, rfl⟩ := List.append_of_mem hthis
  have hindex := findIdx?_middle hn
  have hmembers := hn.of_map
  simp only [exchanged, hindex, Option.bind_some]
  cases direction with
  | up =>
    rcases List.eq_nil_or_concat front with rfl | ⟨front, other, rfl⟩
    · exact .inl ⟨rfl, rfl⟩
    · rw [List.concat_eq_append, List.append_assoc, List.singleton_append] at hmembers ⊢
      have hnb : neighbours? (front ++ other :: this :: back) (front ++ [other]).length .up =
          some (this, other) := by
        refine neighbours?_of_getElem? front.length (by simp) (by simp) ?_
        simp only [List.length_append, List.length_singleton, Direction.offset]
        omega
      have hswap := map_swap_adjacent hmembers
      rw [Equiv.swap_comm] at hswap
      refine .inr ⟨this, by simp, other, by simp, rfl, ?_, by rw [hnb]; rfl, ?_⟩
      · rintro rfl
        simp [List.nodup_append] at hmembers
      · simp only [hswap, List.map_append, List.map_cons]
        exact .up _ _
  | down =>
    cases back with
    | nil =>
      refine .inl ⟨?_, ?_⟩
      · rw [neighbours?_down_last]
        rfl
      · rw [edge, List.map_append, List.map_singleton, List.getLast?_concat]
    | cons other back =>
      have hnb : neighbours? (front ++ this :: other :: back) front.length .down =
          some (this, other) :=
        neighbours?_of_getElem? (front.length + 1) (by simp) (by simp) rfl
      have hswap := map_swap_adjacent hmembers
      refine .inr ⟨this, by simp, other, by simp, rfl, ?_, by rw [hnb]; rfl, ?_⟩
      · rintro rfl
        simp [List.nodup_append] at hmembers
      · simp only [hswap, List.map_append, List.map_cons]
        exact .down _ _

end Listing

/-! ## Standing in an order -/

namespace Contents

variable {c : Contents} {scope : Scope} {order : List Member}

/-- A listing stands in an order of numbers, at the positions `0, 1, ..., n - 1`. -/
structure StandsAs (c : Contents) (scope : Scope) (order : List Id) : Prop where
  ids : (c.list scope).map Member.id = order
  positions : (c.list scope).map Member.sortorder = (List.range order.length).map Int.ofNat

/-- Entries at their ranks stand in their order. -/
theorem standsAs_of_list_eq_ranked (h : c.list scope = Listing.ranked order) :
    c.StandsAs scope (order.map Member.id) where
  ids := by rw [h, Listing.map_id_ranked]
  positions := by
    have hc := Listing.isContiguous_iff.mp (Listing.isContiguous_ranked order)
    rwa [h, List.length_map, ← Listing.length_rankedFrom 0 order]

/-- A settled listing stands in the settled order. -/
theorem standsAs_settle (now : Int) (h : order.Perm (c.list scope)) :
    (c.settle now scope.kind order).StandsAs scope (order.map Member.id) :=
  standsAs_of_list_eq_ranked (list_settle now h)

end Contents

end FieldCatalog
