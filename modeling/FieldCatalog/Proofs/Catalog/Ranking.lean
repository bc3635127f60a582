import FieldCatalog.Proofs.Catalog.Entries
import Mathlib.Data.List.TakeWhile

/-!
# Writing ranks

Ranks are written entry by entry. An entry that is listed at its rank is passed over, whatever is
stored; the others are placed one after another, until one of them turns out to be missing. What has
been placed by then stays placed and nothing else is touched, so that the transaction around it can undo
it and another run can take it up again.

## Main definitions

* `Listing.moves`: the entries that are listed elsewhere than at their ranks, with the ranks
* `Listing.placeEach`: entries are placed one after another
* `Contents.Placed`: entries have been placed, and nothing else has happened

## Main results

* `Listing.on_placeEach`: entries are placed up to the first one that is missing
* `Listing.writeRanks_outcomes`: what writing ranks leads to
-/

namespace FieldCatalog

/-! ## Rows that are placed -/

namespace Contents

variable {c c₁ c' : Contents} {now : Int} {kind : Kind}

/-- A row at a position, stamped with the time. -/
def placedAt (position now : Int) : Category ⊕ Field → Category ⊕ Field :=
  Sum.map (fun row => { row with sortorder := position, timemodified := now })
    fun row => { row with sortorder := position, timemodified := now }

/-- Entries of a kind have been placed at the positions that go with them, at the time `now`. The rows of
all other entries are as they were, and there are no new ones. -/
structure Placed (c : Contents) (now : Int) (kind : Kind) (moves : List (Member × Nat))
    (c' : Contents) : Prop where
  moved : ∀ move ∈ moves, c'.row? kind move.1.id = (c.row? kind move.1.id).map (placedAt move.2 now)
  kept : ∀ kind' id, (kind' = kind → ∀ move ∈ moves, move.1.id ≠ id) →
    c'.row? kind' id = c.row? kind' id

theorem placed_nil (c : Contents) (now : Int) (kind : Kind) : c.Placed now kind [] c :=
  ⟨by simp, fun _ _ _ => rfl⟩

/-- Entries of different numbers are placed one after another. -/
theorem Placed.cons {move : Member × Nat} {moves : List (Member × Nat)}
    (hfirst : c.Placed now kind [move] c₁) (hrest : c₁.Placed now kind moves c')
    (hne : ∀ other ∈ moves, other.1.id ≠ move.1.id) : c.Placed now kind (move :: moves) c' where
  moved := by
    intro other hother
    rcases List.mem_cons.mp hother with rfl | hother
    · rw [hrest.kept kind _ fun _ => hne, hfirst.moved other List.mem_cons_self]
    · rw [hrest.moved other hother, hfirst.kept kind _ fun _ m hm =>
        List.mem_singleton.mp hm ▸ (hne other hother).symm]
  kept := by
    intro kind' id h
    rw [hrest.kept kind' id fun hk other hother => h hk other (.tail _ hother),
      hfirst.kept kind' id fun hk m hm => List.mem_singleton.mp hm ▸ h hk move List.mem_cons_self]

end Contents

namespace Listing

open Statement

variable {c : Contents} {now : Int} {kind : Kind} {id : Id} {position : Int} {members : List Member}

/-- A position is written to the row of its entry if there is one. -/
theorem on_setSortorder (c : Contents) (now : Int) (kind : Kind) (move : Member × Nat) :
    ∃ c', (setSortorder kind move.1.id move.2 now).on c =
        (.ok (c.row? kind move.1.id).isSome, c') ∧
      c.Placed now kind [move] c' ∧ (c.row? kind move.1.id = none → c' = c) := by
  refine ⟨((setSortorder kind move.1.id move.2 now).on c).2, ?_, ⟨fun other hother => ?_, ?_⟩, ?_⟩
  · cases kind <;> exact Prod.ext (congrArg Except.ok Option.isSome_map.symm) rfl
  · obtain rfl := List.mem_singleton.mp hother
    cases kind with
    | category =>
      simp only [on_setSortorder_category, Contents.row?, Contents.category?,
        Table.find?_modify_self, Option.map_map]
      rfl
    | field =>
      simp only [on_setSortorder_field, Contents.row?, Contents.field?, Table.find?_modify_self,
        Option.map_map]
      rfl
  · intro kind' id hid
    cases kind <;> cases kind'
    case category.category =>
      have hne := hid rfl move List.mem_cons_self
      simp only [on_setSortorder_category, Contents.row?, Contents.category?,
        Table.find?_modify_of_ne _ _ _ hne.symm]
    case category.field => rfl
    case field.category => rfl
    case field.field =>
      have hne := hid rfl move List.mem_cons_self
      simp only [on_setSortorder_field, Contents.row?, Contents.field?,
        Table.find?_modify_of_ne _ _ _ hne.symm]
  · intro hmissing
    cases kind with
    | category =>
      exact congrArg (Contents.mk · _) (Table.modify_eq_self (Option.map_eq_none_iff.mp hmissing))
    | field =>
      exact congrArg (Contents.mk _) (Table.modify_eq_self (Option.map_eq_none_iff.mp hmissing))

/-- An entry that is missing cannot be placed. -/
theorem on_place_of_missing {move : Member × Nat} (h : c.row? kind move.1.id = none) :
    (place now kind move.1.id move.2).on c = (.error (.partialWrite kind move.1.id), c) := by
  obtain ⟨c', hset, -, hsame⟩ := on_setSortorder c now kind move
  rw [h, Option.isSome_none, hsame h] at hset
  simp only [place, on_bind, hset, Bool.false_eq_true, if_false, on_throw]

/-- An entry that exists is placed. -/
theorem on_place_of_found (now : Int) {move : Member × Nat}
    (h : (c.row? kind move.1.id).isSome) :
    ∃ c', (place now kind move.1.id move.2).on c = (.ok (), c') ∧ c.Placed now kind [move] c' := by
  obtain ⟨c', hset, hplaced, -⟩ := on_setSortorder c now kind move
  rw [h] at hset
  refine ⟨c', ?_, hplaced⟩
  simp only [place, on_bind, hset, if_true, on_pure]

/-- Places entries one after another. -/
def placeEach (now : Int) (kind : Kind) : List (Member × Nat) → Statement Unit
  | [] => return ()
  | move :: moves => do
    place now kind move.1.id move.2
    placeEach now kind moves

/-- Entries of different numbers are placed up to the first one that is missing. -/
theorem on_placeEach (c : Contents) (now : Int) (kind : Kind) {moves : List (Member × Nat)}
    (present : Id → Bool)
    (hn : (moves.map fun move => move.1.id).Nodup)
    (hpresent : ∀ move ∈ moves, present move.1.id = (c.row? kind move.1.id).isSome) :
    ∃ c', (placeEach now kind moves).on c =
        ((moves.find? fun move => !present move.1.id).elim (.ok ())
          fun move => .error (.partialWrite kind move.1.id), c') ∧
      c.Placed now kind (moves.takeWhile fun move => present move.1.id) c' := by
  induction moves generalizing c with
  | nil => exact ⟨c, rfl, c.placed_nil now kind⟩
  | cons move moves ih =>
    rw [List.map_cons, List.nodup_cons] at hn
    have hne : ∀ other ∈ moves, other.1.id ≠ move.1.id := fun other hother hid =>
      hn.1 (hid ▸ List.mem_map_of_mem hother)
    have hmove := hpresent move List.mem_cons_self
    cases hrow : c.row? kind move.1.id with
    | none =>
      -- The first entry is missing, and what follows it is not reached.
      rw [hrow, Option.isSome_none] at hmove
      refine ⟨c, ?_, ?_⟩
      · simp [placeEach, on_place_of_missing hrow, hmove]
      · simpa [hmove] using c.placed_nil now kind
    | some row =>
      -- The first entry is placed, which is no matter to the presence of the others.
      rw [hrow, Option.isSome_some] at hmove
      obtain ⟨c₁, hplace, hfirst⟩ := on_place_of_found now (by rw [hrow]; rfl)
      have hpresent₁ : ∀ other ∈ moves, present other.1.id = (c₁.row? kind other.1.id).isSome := by
        intro other hother
        rw [hfirst.kept kind _ fun _ m hm => List.mem_singleton.mp hm ▸ (hne other hother).symm]
        exact hpresent other (.tail _ hother)
      obtain ⟨c', hrest, hplaced⟩ := ih c₁ hn.2 hpresent₁
      refine ⟨c', ?_, ?_⟩
      · simpa [placeEach, hplace, hmove] using hrest
      · rw [List.takeWhile_cons_of_pos (by simpa using hmove)]
        exact hfirst.cons hplaced fun other hother =>
          hne other ((List.takeWhile_sublist _).subset hother)

/-! ## The entries that have to move -/

/-- The entries of an order that are listed elsewhere than at the ranks that count up from `rank`, with
these ranks. -/
def movesFrom (rank : Nat) (members : List Member) : List (Member × Nat) :=
  (members.zipIdx rank).filter fun move => move.1.sortorder != move.2

theorem movesFrom_cons (rank : Nat) (m : Member) (ms : List Member) :
    movesFrom rank (m :: ms) =
      if m.sortorder = rank then movesFrom (rank + 1) ms
      else (m, rank) :: movesFrom (rank + 1) ms := by
  rw [movesFrom, List.zipIdx_cons, List.filter_cons]
  by_cases hrank : m.sortorder = rank <;> simp [movesFrom, hrank]

/-- The entries of an order that are listed elsewhere than at their ranks, with the ranks. -/
def moves (members : List Member) : List (Member × Nat) :=
  movesFrom 0 members

theorem mem_moves_iff {m : Member} {rank : Nat} :
    (m, rank) ∈ moves members ↔ members[rank]? = some m ∧ m.sortorder ≠ rank := by
  rw [moves, movesFrom, List.mem_filter, List.mem_zipIdx_iff_getElem?, bne_iff_ne]

theorem nodup_ids_moves (hn : (members.map Member.id).Nodup) :
    ((moves members).map fun move => move.1.id).Nodup := by
  have hids : (members.zipIdx.map fun move => move.1.id) = members.map Member.id := by
    exact (List.map_map (l := members.zipIdx)).symm.trans
      (congrArg (List.map Member.id) (List.zipIdx_map_fst 0 members))
  exact (List.filter_sublist.map _).nodup (hids ▸ hn)

/-- Writing the ranks of an order is placing the entries that are listed elsewhere. -/
theorem on_writeRanksFrom_eq (c : Contents) (now : Int) (kind : Kind) (members : List Member)
    (rank : Nat) :
    (writeRanksFrom now kind rank members).on c =
      match (placeEach now kind (movesFrom rank members)).on c with
      | (.ok _, c') => (.ok (movesFrom rank members).length, c')
      | (.error e, c') => (.error e, c') := by
  -- Induction on the order, for every first rank and all contents.
  induction members generalizing rank c with
  | nil => rfl
  | cons m ms ih =>
    have hrest := fun c : Contents => ih c (rank + 1)
    rw [Int.natCast_succ] at hrest
    rw [writeRanksFrom, movesFrom_cons]
    by_cases hrank : m.sortorder = rank
    · rw [if_pos hrank, if_pos hrank]
      exact hrest c
    · rw [if_neg hrank, if_neg hrank, placeEach]
      simp only [on_bind]
      -- Both runs place the entry first, and differ in nothing but the count after that.
      rcases (place now kind m.id rank).on c with ⟨_ | _, c₁⟩
      · rfl
      · simp only [hrest]
        rcases (placeEach now kind (movesFrom (rank + 1) ms)).on c₁ with ⟨_ | _, c'⟩ <;> rfl

/-- An entry that is listed at its rank is not among those that have to move. -/
theorem id_ne_of_mem_moves (hn : (members.map Member.id).Nodup) {rank : Nat} {m : Member}
    (hm : members[rank]? = some m) (hrank : m.sortorder = rank) :
    ∀ move ∈ moves members, move.1.id ≠ m.id := by
  rintro ⟨other, rank'⟩ hmove hid
  obtain ⟨hother, hne⟩ := mem_moves_iff.mp hmove
  obtain rfl : other = m := List.inj_on_of_nodup_map hn (List.mem_of_getElem? hother)
    (List.mem_of_getElem? hm) hid
  obtain ⟨hlt, hget⟩ := List.getElem?_eq_some_iff.mp hm
  obtain ⟨hlt', hget'⟩ := List.getElem?_eq_some_iff.mp hother
  obtain rfl : rank = rank' := hn.of_map.getElem_inj_iff.mp (hget.trans hget'.symm)
  exact hne hrank

/-- Entries that are listed where they are stored stand at their ranks once those that are listed
elsewhere have been placed. -/
theorem sortorder_of_placed {c' : Contents} (hn : (members.map Member.id).Nodup)
    (hstored : ∀ m ∈ members, ∀ n, c.member? kind m.id = some n → n.sortorder = m.sortorder)
    (hplaced : c.Placed now kind (moves members) c') {rank : Nat} {m n : Member}
    (hm : members[rank]? = some m) (hmember : c'.member? kind m.id = some n) :
    n.sortorder = rank := by
  rw [Contents.member?_eq_map] at hmember
  by_cases hrank : m.sortorder = rank
  · -- The row is as it was.
    rw [hplaced.kept kind m.id fun _ => id_ne_of_mem_moves hn hm hrank,
      ← Contents.member?_eq_map] at hmember
    rw [hstored m (List.mem_of_getElem? hm) n hmember, hrank]
  · rw [hplaced.moved (m, rank) (mem_moves_iff.mpr ⟨hm, hrank⟩), Option.map_map] at hmember
    obtain ⟨row, -, rfl⟩ := Option.map_eq_some_iff.mp hmember
    cases row <;> rfl

/-- Entries that are listed at their ranks are passed over. -/
theorem on_writeRanksFrom_rankedFrom (c : Contents) (now : Int) (kind : Kind) (rank : Int)
    (members : List Member) :
    (writeRanksFrom now kind rank (rankedFrom rank members)).on c = (.ok 0, c) := by
  induction members generalizing rank with
  | nil => rfl
  | cons m ms ih =>
    rw [rankedFrom, writeRanksFrom, if_pos rfl]
    exact ih (rank + 1)

/-- What writing ranks leads to. If every entry that is listed elsewhere than at its rank exists, these
entries are placed at their ranks and counted; the rows of all others are as they were, and every entry
of the order that exists stands at its rank. Otherwise the entries are placed up to the first one that is
missing, which is named. Once the entries are listed at their ranks, nothing is written any more. -/
theorem writeRanks_outcomes (c : Contents) (now : Int) (kind : Kind) (members : List Member)
    (hn : (members.map Member.id).Nodup)
    (hstored : ∀ m ∈ members, ∀ n, c.member? kind m.id = some n → n.sortorder = m.sortorder) :
    ((∀ move ∈ moves members, (c.row? kind move.1.id).isSome) →
      ∃ c', (writeRanks now kind members).on c = (.ok (moves members).length, c') ∧
        c.Placed now kind (moves members) c' ∧
        ∀ (rank : Nat) m n, members[rank]? = some m → c'.member? kind m.id = some n →
          n.sortorder = rank) ∧
    ((¬ ∀ move ∈ moves members, (c.row? kind move.1.id).isSome) →
      ∃ front missing back c', moves members = front ++ missing :: back ∧
        (∀ move ∈ front, (c.row? kind move.1.id).isSome) ∧ c.row? kind missing.1.id = none ∧
        (writeRanks now kind members).on c = (.error (.partialWrite kind missing.1.id), c') ∧
        c.Placed now kind front c') ∧
    ∀ now' c', (writeRanks now' kind (ranked members)).on c' = (.ok 0, c') := by
  obtain ⟨c', hplace, hplaced⟩ := on_placeEach c now kind (fun id => (c.row? kind id).isSome)
    (nodup_ids_moves hn) fun _ _ => rfl
  have hwrite := on_writeRanksFrom_eq c now kind members 0
  rw [← moves, hplace] at hwrite
  refine ⟨fun hall => ?_, fun hmissing => ?_, fun now' c' =>
    on_writeRanksFrom_rankedFrom c' now' kind 0 members⟩
  · have hnone : ((moves members).find? fun move => !(c.row? kind move.1.id).isSome) = none :=
      List.find?_eq_none.mpr fun move hmove => by simp [hall move hmove]
    have hself : ((moves members).takeWhile fun move => (c.row? kind move.1.id).isSome) =
        moves members := List.takeWhile_eq_self_iff.mpr hall
    rw [hnone] at hwrite
    rw [hself] at hplaced
    exact ⟨c', hwrite, hplaced, fun rank m n hm hmember =>
      sortorder_of_placed hn hstored hplaced hm hmember⟩
  · have hsome : ((moves members).find? fun move => !(c.row? kind move.1.id).isSome).isSome := by
      simpa using hmissing
    obtain ⟨missing, hfind⟩ := Option.isSome_iff_exists.mp hsome
    obtain ⟨hrow, front, back, hcut, hfront⟩ := List.find?_eq_some_iff_append.mp hfind
    have hreached : ((moves members).takeWhile fun move => (c.row? kind move.1.id).isSome) = front := by
      rw [hcut, List.takeWhile_append_of_pos (by simpa using hfront),
        List.takeWhile_cons_of_neg (by simpa using hrow), List.append_nil]
    rw [hfind] at hwrite
    rw [hreached] at hplaced
    exact ⟨front, missing, back, c', hcut, by simpa using hfront, by simpa using hrow, hwrite, hplaced⟩

/-- Categories in an order of which the first one is at its rank, and in an order with a category that does
not exist. In the first order two entries are placed; in the second one, the one before the gap. -/
theorem writeRanks_outcomes_sample :
    let area : Area := ⟨"core", "course", 0⟩
    let general : Category := ⟨1, "General", "", area, 0, 5, 5⟩
    let planning : Category := ⟨2, "Planning", "", area, 7, 5, 5⟩
    let grading : Category := ⟨3, "Grading", "", area, -4, 5, 5⟩
    let c : Contents := ⟨⟨[general, planning, grading], by decide⟩, .empty⟩
    let whole : List Member := [⟨1, 0⟩, ⟨3, -4⟩, ⟨2, 7⟩]
    let gapped : List Member := [⟨3, -4⟩, ⟨9, 5⟩, ⟨2, 7⟩]
    (∃ c', (writeRanks 8 .category whole).on c = (.ok 2, c') ∧
      c'.row? .category 1 = some (.inl general) ∧
      c'.row? .category 2 = some (.inl { planning with sortorder := 2, timemodified := 8 }) ∧
      c'.row? .category 3 = some (.inl { grading with sortorder := 1, timemodified := 8 })) ∧
    (∃ c', (writeRanks 8 .category gapped).on c = (.error (.partialWrite .category 9), c') ∧
      c'.row? .category 2 = some (.inl planning) ∧
      c'.row? .category 3 = some (.inl { grading with sortorder := 0, timemodified := 8 })) ∧
    (writeRanks 8 .category (ranked whole)).on c = (.ok 0, c) := by
  intro area general planning grading c whole gapped
  obtain ⟨hwhole, -, hagain⟩ :=
    writeRanks_outcomes c 8 .category whole (by decide) (by decide)
  obtain ⟨-, hgapped, -⟩ :=
    writeRanks_outcomes c 8 .category gapped (by decide) (by decide)
  refine ⟨?_, ?_, hagain 8 c⟩
  · obtain ⟨c', hwrite, hplaced, -⟩ := hwhole (by decide)
    exact ⟨c', hwrite, hplaced.kept _ _ (by decide), hplaced.moved (⟨2, 7⟩, 2) (by decide),
      hplaced.moved (⟨3, -4⟩, 1) (by decide)⟩
  · obtain ⟨front, missing, back, c', hcut, hfront, hmissing, hwrite, hplaced⟩ := hgapped (by decide)
    -- The first entry exists and the second one does not, so the order is cut between them.
    obtain ⟨rfl, rfl⟩ : front = [(⟨3, -4⟩, 0)] ∧ missing = (⟨9, 5⟩, 1) := by
      have hmoves : moves gapped = [(⟨3, -4⟩, 0), (⟨9, 5⟩, 1), (⟨2, 7⟩, 2)] := by decide
      rw [hmoves] at hcut
      rcases front with _ | ⟨first, _ | ⟨second, rest⟩⟩
      all_goals simp only [List.cons_append, List.nil_append, List.cons.injEq] at hcut
      · obtain ⟨rfl, -⟩ := hcut
        cases hmissing
      · obtain ⟨rfl, rfl, -⟩ := hcut
        exact ⟨rfl, rfl⟩
      · obtain ⟨rfl, rfl, -⟩ := hcut
        cases hfront _ (List.mem_cons_of_mem _ List.mem_cons_self)
    exact ⟨c', hwrite, hplaced.kept _ _ (by decide), hplaced.moved _ List.mem_cons_self⟩

end Listing

end FieldCatalog
