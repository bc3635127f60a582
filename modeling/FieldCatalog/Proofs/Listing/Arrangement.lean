import FieldCatalog.Listing.Order
import Mathlib.Data.List.Basic

/-!
# Arranged listings

Entries of different numbers are strictly ordered by position and number, so a listing has exactly
one arrangement. The positions of an arrangement are contiguous exactly when they read
`0, 1, ..., n - 1`, and entries that have been given their ranks stand in the order of the ranks.

## Main definitions

* `Listing.rankIn`: the position of an entry once an order has been given ranks

## Main results

* `Listing.perm_arrange`, `Listing.pairwise_arrange`: an arrangement is the rows, in order
* `Listing.arrange_map`, `Listing.arrange_filter`: drawing and selecting before and after arranging
* `Listing.eq_of_mem_iff`: an arrangement is determined by its members
* `Listing.isContiguous_iff`: contiguous positions are `0, 1, ..., n - 1`
* `Listing.pairwise_ranked`, `Listing.mem_ranked_iff`: entries at their ranks
* `Listing.perm_of_reinsert`: putting an entry elsewhere keeps the entries
-/

namespace FieldCatalog

namespace Member

theorem Precedes.irrefl {a : Member} : ¬ a.Precedes a := by
  rintro (h | ⟨-, h⟩) <;> exact absurd h (Int.lt_irrefl _)

theorem Precedes.trans {a b c : Member} (hab : a.Precedes b) (hbc : b.Precedes c) :
    a.Precedes c := by
  -- The positions decide unless all three are equal; then the numbers do.
  rcases hab with hab | ⟨hab, hid⟩ <;> rcases hbc with hbc | ⟨hbc, hid'⟩
  · exact .inl (by omega)
  · exact .inl (by omega)
  · exact .inl (by omega)
  · exact .inr ⟨hab.trans hbc, Int.lt_trans hid hid'⟩

theorem Precedes.asymm {a b : Member} (hab : a.Precedes b) : ¬ b.Precedes a := fun hba =>
  Precedes.irrefl (hab.trans hba)

theorem Precedes.ne {a b : Member} (hab : a.Precedes b) : a ≠ b := by
  rintro rfl
  exact Precedes.irrefl hab

/-- Of two entries with different numbers one precedes the other. -/
theorem precedes_of_not_precedes {a b : Member} (hne : a.id ≠ b.id) (h : ¬ a.Precedes b) :
    b.Precedes a := by
  -- Equal positions leave the decision to the numbers, which differ.
  rcases Int.lt_trichotomy a.sortorder b.sortorder with hlt | heq | hgt
  · exact absurd (.inl hlt) h
  · rcases Int.lt_or_gt_of_ne hne with hid | hid
    · exact absurd (.inr ⟨heq, hid⟩) h
    · exact .inr ⟨heq.symm, hid⟩
  · exact .inl hgt

end Member

namespace Listing

/-! ## The arrangement of rows -/

section Arrange

variable {α : Type} {member : α → Member}

theorem perm_insertInOrder (row : α) (rows : List α) :
    (insertInOrder member row rows).Perm (row :: rows) := by
  induction rows with
  | nil => exact .refl _
  | cons other rest ih =>
    unfold insertInOrder
    split
    · -- The row goes behind the first one, so the two change places in the list of all rows.
      exact (ih.cons other).trans (.swap row other rest)
    · exact .refl _

/-- An arrangement holds the rows it was made of. -/
theorem perm_arrange (rows : List α) : (arrange member rows).Perm rows := by
  induction rows with
  | nil => exact .refl _
  | cons row rest ih => exact (perm_insertInOrder row _).trans (ih.cons row)

@[simp] theorem mem_arrange {rows : List α} {row : α} : row ∈ arrange member rows ↔ row ∈ rows :=
  (perm_arrange rows).mem_iff

theorem pairwise_insertInOrder {row : α} {rows : List α}
    (hne : ∀ other ∈ rows, (member row).id ≠ (member other).id)
    (h : rows.Pairwise fun a b => (member a).Precedes (member b)) :
    (insertInOrder member row rows).Pairwise fun a b => (member a).Precedes (member b) := by
  induction rows with
  | nil => exact List.pairwise_singleton _ _
  | cons other rest ih =>
    obtain ⟨hother, hrest⟩ := List.pairwise_cons.mp h
    unfold insertInOrder
    split
    · next hlt =>
      -- The first row precedes the inserted one as well as the rest.
      refine List.pairwise_cons.mpr ⟨fun x hx => ?_, ih (fun x hx => hne x (.tail _ hx)) hrest⟩
      rcases List.mem_cons.mp ((perm_insertInOrder row rest).mem_iff.mp hx) with rfl | hx
      · exact hlt
      · exact hother x hx
    · next hge =>
      -- The inserted row precedes the first one, and through it the rest.
      have hlt := Member.precedes_of_not_precedes (hne other List.mem_cons_self).symm hge
      refine List.pairwise_cons.mpr ⟨fun x hx => ?_, h⟩
      rcases List.mem_cons.mp hx with rfl | hx
      · exact hlt
      · exact hlt.trans (hother x hx)

/-- Rows of different numbers are arranged in the order of their listing. -/
theorem pairwise_arrange {rows : List α}
    (h : rows.Pairwise fun a b => (member a).id ≠ (member b).id) :
    (arrange member rows).Pairwise fun a b => (member a).Precedes (member b) := by
  induction rows with
  | nil => exact .nil
  | cons row rest ih =>
    obtain ⟨hrow, hrest⟩ := List.pairwise_cons.mp h
    exact pairwise_insertInOrder (fun other ho => hrow other (mem_arrange.mp ho)) (ih hrest)

theorem insertInOrder_map (row : α) (rows : List α) :
    insertInOrder id (member row) (rows.map member) = (insertInOrder member row rows).map member := by
  induction rows with
  | nil => rfl
  | cons other rest ih =>
    simp only [List.map_cons, insertInOrder, id]
    split
    · rw [List.map_cons, ih]
    · rfl

/-- Rows may be drawn as entries first and put in order then, or the other way round. -/
theorem arrange_map (rows : List α) :
    arrange id (rows.map member) = (arrange member rows).map member := by
  induction rows with
  | nil => rfl
  | cons row rest ih =>
    calc arrange id ((row :: rest).map member)
        = insertInOrder id (member row) (arrange id (rest.map member)) := rfl
      _ = insertInOrder id (member row) ((arrange member rest).map member) := by rw [ih]
      _ = (insertInOrder member row (arrange member rest)).map member := insertInOrder_map _ _

/-- Rows of different numbers may be selected first and put in order then, or the other way round. -/
theorem arrange_filter {rows : List α} (h : rows.Pairwise fun a b => (member a).id ≠ (member b).id)
    (p : α → Bool) : arrange member (rows.filter p) = (arrange member rows).filter p := by
  -- Both hold the selected rows, and both are in order.
  have hperm : (arrange member (rows.filter p)).Perm ((arrange member rows).filter p) :=
    (perm_arrange _).trans ((perm_arrange rows).filter p).symm
  exact hperm.eq_of_pairwise (fun _ _ _ _ hab hba => absurd hba hab.asymm)
    (pairwise_arrange (h.filter p)) ((pairwise_arrange h).filter p)

end Arrange

/-- A listing in order is determined by its members. -/
theorem eq_of_mem_iff {l l' : List Member} (hl : l.Pairwise Member.Precedes)
    (hl' : l'.Pairwise Member.Precedes) (h : ∀ m, m ∈ l ↔ m ∈ l') : l = l' := by
  -- Without repetitions the same members make permutations, and a permutation in order is unique.
  have nodup : ∀ {l : List Member}, l.Pairwise Member.Precedes → l.Nodup := fun hl =>
    hl.imp Member.Precedes.ne
  have hp := (List.perm_ext_iff_of_nodup (nodup hl) (nodup hl')).mpr h
  exact hp.eq_of_pairwise (fun a b _ _ hab hba => absurd hba hab.asymm) hl hl'

/-- Entries of different numbers have different numbers in any other order. -/
theorem nodup_ids_of_perm {l l' : List Member} (hp : l.Perm l') (h : (l'.map Member.id).Nodup) :
    (l.map Member.id).Nodup :=
  (hp.map Member.id).nodup_iff.mpr h

/-! ## Contiguous positions -/

theorem isContiguousFrom_iff {rank : Int} {members : List Member} :
    isContiguousFrom rank members = true ↔
      members.map Member.sortorder = (List.range members.length).map fun (i : Nat) => rank + i := by
  -- Induction on the entries, for every first rank, since the rest counts up from the next one.
  induction members generalizing rank with
  | nil => simp [isContiguousFrom]
  | cons m ms ih =>
    have hs : ((fun (i : Nat) => rank + (i : Int)) ∘ Nat.succ) = fun (i : Nat) => rank + 1 + i := by
      funext i
      simp only [Function.comp, Nat.succ_eq_add_one]
      omega
    simp only [isContiguousFrom, Bool.and_eq_true, beq_iff_eq, ih, List.map_cons, List.length_cons,
      List.range_succ_eq_map, List.map_map, List.cons.injEq, Int.natCast_zero, Int.add_zero, hs]

/-- Positions are contiguous exactly when they read `0, 1, ..., n - 1`. -/
theorem isContiguous_iff {members : List Member} :
    isContiguous members = true ↔
      members.map Member.sortorder = (List.range members.length).map Int.ofNat := by
  rw [isContiguous, isContiguousFrom_iff]
  simp only [Int.zero_add]
  exact Iff.rfl

/-! ## Ranks -/

@[simp] theorem map_id_rankedFrom (rank : Int) (members : List Member) :
    (rankedFrom rank members).map Member.id = members.map Member.id := by
  induction members generalizing rank with
  | nil => rfl
  | cons m ms ih => simp [rankedFrom, ih]

@[simp] theorem map_id_ranked (members : List Member) :
    (ranked members).map Member.id = members.map Member.id :=
  map_id_rankedFrom 0 members

/-- Entries that are at their ranks stay where they are. -/
theorem rankedFrom_eq_self {rank : Int} {members : List Member}
    (h : isContiguousFrom rank members = true) : rankedFrom rank members = members := by
  induction members generalizing rank with
  | nil => rfl
  | cons m ms ih =>
    simp only [isContiguousFrom, Bool.and_eq_true, beq_iff_eq] at h
    rw [rankedFrom, ih h.2, ← h.1]

theorem ranked_eq_self {members : List Member} (h : isContiguous members = true) :
    ranked members = members :=
  rankedFrom_eq_self h

theorem le_sortorder_of_mem_rankedFrom {rank : Int} {members : List Member} {m : Member}
    (h : m ∈ rankedFrom rank members) : rank ≤ m.sortorder := by
  induction members generalizing rank with
  | nil => cases h
  | cons n ns ih =>
    rcases List.mem_cons.mp h with rfl | h
    · exact Int.le_refl _
    · have := ih h
      omega

theorem pairwise_rankedFrom (rank : Int) (members : List Member) :
    (rankedFrom rank members).Pairwise Member.Precedes := by
  induction members generalizing rank with
  | nil => exact .nil
  | cons m ms ih =>
    refine List.pairwise_cons.mpr ⟨fun n hn => .inl ?_, ih (rank + 1)⟩
    have := le_sortorder_of_mem_rankedFrom hn
    show rank < n.sortorder
    omega

/-- Entries at their ranks stand in the order of the ranks. -/
theorem pairwise_ranked (members : List Member) :
    (ranked members).Pairwise Member.Precedes :=
  pairwise_rankedFrom 0 members

/-- The position of an entry once the entries of an order have been given positions that count up
from `rank`: its place in the order, or its own position when it is not among them. -/
def rankIn (rank : Int) : List Member → Member → Int
  | [], m => m.sortorder
  | n :: ns, m => if n.id = m.id then rank else rankIn (rank + 1) ns m

theorem rankIn_of_not_mem {rank : Int} {order : List Member} {m : Member}
    (h : m.id ∉ order.map Member.id) : rankIn rank order m = m.sortorder := by
  induction order generalizing rank with
  | nil => rfl
  | cons n ns ih =>
    simp only [List.map_cons, List.mem_cons, not_or] at h
    rw [rankIn, if_neg (Ne.symm h.1), ih h.2]

theorem mem_rankedFrom_iff {rank : Int} {order : List Member} (h : (order.map Member.id).Nodup)
    {m : Member} :
    m ∈ rankedFrom rank order ↔ ∃ n ∈ order, m = ⟨n.id, rankIn rank order n⟩ := by
  -- Induction on the order: behind the first entry the ranks are those of the rest of the order,
  -- because no later entry has the number of the first one.
  induction order generalizing rank with
  | nil => simp [rankedFrom]
  | cons k ks ih =>
    rw [List.map_cons, List.nodup_cons] at h
    obtain ⟨hk, hks⟩ := h
    have hrank : ∀ n ∈ ks, rankIn rank (k :: ks) n = rankIn (rank + 1) ks n := by
      intro n hn
      rw [rankIn, if_neg fun e : k.id = n.id => hk (e ▸ List.mem_map_of_mem hn)]
    simp only [rankedFrom, List.mem_cons, ih hks, exists_eq_or_imp]
    refine or_congr ?_ (exists_congr fun n => and_congr_right fun hn => ?_)
    · rw [rankIn, if_pos rfl]
    · rw [hrank n hn]

/-- The entries at their ranks are the entries of the order, each at its place in it. -/
theorem mem_ranked_iff {order : List Member} (h : (order.map Member.id).Nodup) {m : Member} :
    m ∈ ranked order ↔ ∃ n ∈ order, m = ⟨n.id, rankIn 0 order n⟩ :=
  mem_rankedFrom_iff h

theorem rankIn_append_of_mem {rank : Int} {order order' : List Member} {m : Member}
    (h : m.id ∈ order.map Member.id) :
    rankIn rank (order ++ order') m = rankIn rank order m := by
  induction order generalizing rank with
  | nil => simp at h
  | cons n ns ih =>
    simp only [List.cons_append, rankIn]
    split
    · rfl
    · next hn =>
      simp only [List.map_cons, List.mem_cons] at h
      exact ih (h.resolve_left fun e => hn e.symm)

theorem rankIn_append_of_not_mem {rank : Int} {order order' : List Member} {m : Member}
    (h : m.id ∉ order.map Member.id) :
    rankIn rank (order ++ order') m = rankIn (rank + order.length) order' m := by
  induction order generalizing rank with
  | nil => simp
  | cons n ns ih =>
    simp only [List.map_cons, List.mem_cons, not_or] at h
    rw [List.cons_append, rankIn, if_neg (Ne.symm h.1), ih h.2, List.length_cons]
    congr 1
    omega

/-- An entry behind the others of an order has their number as its place. -/
theorem rankIn_append_singleton {order : List Member} {m : Member}
    (h : ∀ n ∈ order, n.id ≠ m.id) : rankIn 0 (order ++ [m]) m = order.length := by
  have hnot : m.id ∉ order.map Member.id := by simpa using h
  rw [rankIn_append_of_not_mem hnot, Int.zero_add]
  exact if_pos rfl

/-- When the entries of a contiguous listing are replaced by others, these receive the positions of
the entries they replace. -/
theorem rankIn_map {rank : Int} {members : List Member} {s : Member → Member}
    (hc : isContiguousFrom rank members = true)
    (hs : ((members.map s).map Member.id).Nodup) {m n : Member} (hm : m ∈ members)
    (hid : n.id = (s m).id) : rankIn rank (members.map s) n = m.sortorder := by
  -- Induction on the listing, for every rank from which its positions count up.
  induction members generalizing rank with
  | nil => cases hm
  | cons k ks ih =>
    simp only [isContiguousFrom, Bool.and_eq_true, beq_iff_eq] at hc
    simp only [List.map_cons, List.nodup_cons] at hs
    rcases List.mem_cons.mp hm with rfl | hm
    · rw [List.map_cons, rankIn, if_pos hid.symm, hc.1]
    · -- The entry that replaces the first one has another number, so the place is further on.
      have hne : (s k).id ≠ n.id := fun e =>
        hs.1 (e ▸ hid ▸ List.mem_map_of_mem (List.mem_map_of_mem hm))
      rw [List.map_cons, rankIn, if_neg hne]
      exact ih hc.2 hs.2 hm

/-- In a contiguous listing the place of an entry is its position. -/
theorem rankIn_of_mem {rank : Int} {members : List Member} {m : Member}
    (hc : isContiguousFrom rank members = true) (hs : (members.map Member.id).Nodup)
    (hm : m ∈ members) : rankIn rank members m = m.sortorder := by
  have := rankIn_map (s := id) hc (by rwa [List.map_id]) hm rfl
  rwa [List.map_id] at this

/-! ## Putting an entry elsewhere -/

theorem toList_find?_eq_filter {members : List Member} (h : (members.map Member.id).Nodup)
    (id : Id) : (members.find? fun m => m.id == id).toList = members.filter fun m => m.id == id := by
  induction members with
  | nil => rfl
  | cons m ms ih =>
    rw [List.map_cons, List.nodup_cons] at h
    by_cases hid : m.id = id
    · -- The entry found is the only one of its number.
      have hms : ms.filter (fun n => n.id == id) = [] := by
        refine List.filter_eq_nil_iff.mpr fun n hn he => h.1 ?_
        rw [hid, ← beq_iff_eq.mp he]
        exact List.mem_map_of_mem hn
      simp [hid, hms]
    · simp [hid, ih h.2]

/-- The entries from the target on begin with the target. -/
theorem head?_dropWhile_ne {members : List Member} {target : Id}
    (h : target ∈ members.map Member.id) :
    ((members.dropWhile fun m => m.id != target).map Member.id).head? = some target := by
  -- Induction on the entries: up to the target they are dropped.
  induction members with
  | nil => cases h
  | cons m ms ih =>
    by_cases hm : m.id = target
    · simp [hm]
    · rw [List.map_cons, List.mem_cons] at h
      have hrest := ih (h.resolve_left (Ne.symm hm))
      simpa [List.dropWhile_cons, hm] using hrest

/-- An entry is put elsewhere by cutting the others in two, where the second part begins with the
target, or is empty without one. -/
theorem exists_cut_of_reinsert {members order : List Member} {id : Id} {before : Option Id}
    (ho : reinsert members id before = some order) :
    ∃ front back, (members.filter fun m => m.id != id) = front ++ back ∧
      order = front ++ ((members.find? fun m => m.id == id).toList ++ back) ∧
      (back.map Member.id).head? = before := by
  unfold reinsert at ho
  dsimp only at ho
  split at ho
  · exact ⟨_, [], (List.append_nil _).symm, by rw [List.append_nil, Option.some.inj ho], rfl⟩
  · split at ho
    · next target htarget =>
      have hmem : target ∈ (members.filter fun m => m.id != id).map Member.id := by
        obtain ⟨m, hm, hm'⟩ := List.any_eq_true.mp htarget
        exact beq_iff_eq.mp hm' ▸ List.mem_map_of_mem hm
      exact ⟨_, _, List.takeWhile_append_dropWhile.symm, (Option.some.inj ho).symm,
        head?_dropWhile_ne hmem⟩
    · cases ho

/-- Putting an entry elsewhere keeps the entries. -/
theorem perm_of_reinsert {members order : List Member} {id : Id} {before : Option Id}
    (h : (members.map Member.id).Nodup) (ho : reinsert members id before = some order) :
    order.Perm members := by
  -- The entry and the others together are the members, wherever the entry is put.
  have hp : ((members.filter fun m => m.id != id) ++
      members.filter fun m => m.id == id).Perm members := by
    have heq : (fun m : Member => !(m.id != id)) = fun m => m.id == id :=
      funext fun m => by simp [bne]
    have := List.filter_append_perm (fun m : Member => m.id != id) members
    rwa [heq] at this
  obtain ⟨front, back, hcut, rfl, -⟩ := exists_cut_of_reinsert ho
  rw [toList_find?_eq_filter h]
  refine ((List.perm_append_comm.append_left front).trans ?_).trans hp
  rw [← List.append_assoc, hcut]

/-- Without a target, and before another entry, an entry can be put. -/
theorem exists_reinsert {members : List Member} {id : Id} {before : Option Id}
    (h : ∀ target, before = some target → target ≠ id ∧ target ∈ members.map Member.id) :
    ∃ order, reinsert members id before = some order := by
  cases before with
  | none => exact ⟨_, rfl⟩
  | some target =>
    obtain ⟨hne, ht⟩ := h target rfl
    obtain ⟨m, hm, rfl⟩ := List.mem_map.mp ht
    refine ⟨_, if_pos (List.any_eq_true.mpr ⟨m, List.mem_filter.mpr ⟨hm, ?_⟩, ?_⟩)⟩
    · exact bne_iff_ne.mpr hne
    · exact beq_self_eq_true _

end Listing

end FieldCatalog
