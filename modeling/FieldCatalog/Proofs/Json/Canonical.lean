import FieldCatalog.Json.Basic
import Mathlib.Data.List.Basic

/-!
# Canonical values

A canonical value has nothing left to settle: its members are in order already. The members that come
to be under `ofMembers` are those that are given, as long as no name is given twice, only in another
order.

## Main definitions

* `Json.Plain`: no number is a double
* `Json.depth`: how many containers lie inside each other

## Main results

* `Json.settle_of_canonical`: a canonical value is settled
* `Json.perm_ofMembers`: members of different names are only put in order
-/

namespace FieldCatalog.Json

/-! ## Plain and shallow values -/

mutual

/-- No number is a double, at any level. -/
def Plain : Json → Prop
  | .double _ => False
  | .array items => PlainItems items
  | .object members => PlainMembers members
  | _ => True

/-- Every item is plain. -/
def PlainItems : List Json → Prop
  | [] => True
  | item :: rest => item.Plain ∧ PlainItems rest

/-- The value of every member is plain. -/
def PlainMembers : List (String × Json) → Prop
  | [] => True
  | (_, value) :: rest => value.Plain ∧ PlainMembers rest

end

mutual

/-- How many containers lie inside each other at most. -/
def depth : Json → Nat
  | .array items => depthOfItems items + 1
  | .object members => depthOfMembers members + 1
  | _ => 0

/-- The depth of the deepest item. -/
def depthOfItems : List Json → Nat
  | [] => 0
  | item :: rest => max item.depth (depthOfItems rest)

/-- The depth of the deepest value of a member. -/
def depthOfMembers : List (String × Json) → Nat
  | [] => 0
  | (_, value) :: rest => max value.depth (depthOfMembers rest)

end

mutual

/-- Whether a value is canonical shows when its parts are gone through. -/
def decCanonical : (json : Json) → Decidable json.Canonical
  | .null | .bool _ | .double _ | .string _ => .isTrue trivial
  | .integer i => inferInstanceAs (Decidable (InRange i))
  | .array items => decCanonicalItems items
  | .object members =>
    have := decCanonicalMembers members
    inferInstanceAs (Decidable (_ ∧ _))

/-- The same for all items. -/
def decCanonicalItems : (items : List Json) → Decidable (CanonicalItems items)
  | [] => .isTrue trivial
  | item :: rest =>
    have := decCanonical item
    have := decCanonicalItems rest
    inferInstanceAs (Decidable (_ ∧ _))

/-- The same for the values of all members. -/
def decCanonicalMembers : (members : Members) → Decidable (CanonicalMembers members)
  | [] => .isTrue trivial
  | (_, value) :: rest =>
    have := decCanonical value
    have := decCanonicalMembers rest
    inferInstanceAs (Decidable (_ ∧ _))

end

mutual

/-- Whether a value is plain shows likewise. -/
def decPlain : (json : Json) → Decidable json.Plain
  | .null | .bool _ | .integer _ | .string _ => .isTrue trivial
  | .double _ => .isFalse id
  | .array items => decPlainItems items
  | .object members => decPlainMembers members

/-- The same for all items. -/
def decPlainItems : (items : List Json) → Decidable (PlainItems items)
  | [] => .isTrue trivial
  | item :: rest =>
    have := decPlain item
    have := decPlainItems rest
    inferInstanceAs (Decidable (_ ∧ _))

/-- The same for the values of all members. -/
def decPlainMembers : (members : Members) → Decidable (PlainMembers members)
  | [] => .isTrue trivial
  | (_, value) :: rest =>
    have := decPlain value
    have := decPlainMembers rest
    inferInstanceAs (Decidable (_ ∧ _))

end

instance : DecidablePred Canonical := decCanonical

instance : DecidablePred Plain := decPlain

theorem depth_le_of_mem {members : Members} {member : String × Json} (h : member ∈ members) :
    member.2.depth ≤ depthOfMembers members := by
  induction members with
  | nil => cases h
  | cons other rest ih =>
    rw [depthOfMembers]
    rcases List.mem_cons.mp h with rfl | h
    · exact Nat.le_max_left _ _
    · exact Nat.le_trans (ih h) (Nat.le_max_right _ _)

/-! ## Members in order -/

variable {name : String} {json : Json} {members : Members}

theorem put_of_forall_lt (h : ∀ member ∈ members, member.1 < name) :
    put name json members = members ++ [(name, json)] := by
  induction members with
  | nil => rfl
  | cons first rest ih =>
    have hlt := h first List.mem_cons_self
    have hne : name ≠ first.1 := fun he => String.lt_irrefl name (he ▸ hlt)
    rw [put, if_neg hne, if_neg (String.lt_asymm hlt), List.cons_append,
      ih fun member hmem => h member (.tail _ hmem)]

theorem foldl_put_of_pairwise (kept : Members)
    (h : ((kept ++ members).map (·.1)).Pairwise (· < ·)) :
    members.foldl (fun kept member => put member.1 member.2 kept) kept = kept ++ members := by
  -- Induction on the members, for all members that are kept: the next one goes behind them.
  induction members generalizing kept with
  | nil => rw [List.foldl_nil, List.append_nil]
  | cons first rest ih =>
    have hlt : ∀ member ∈ kept, member.1 < first.1 := by
      intro member hmem
      rw [List.map_append, List.map_cons] at h
      exact (List.pairwise_append.mp h).2.2 member.1 (List.mem_map_of_mem hmem) first.1
        List.mem_cons_self
    rw [List.append_cons] at h
    rw [List.foldl_cons, put_of_forall_lt hlt, ih _ h, ← List.append_cons]

/-- Members in order stay as they are. -/
theorem ofMembers_of_pairwise (h : (members.map (·.1)).Pairwise (· < ·)) :
    ofMembers members = members :=
  foldl_put_of_pairwise [] h

theorem perm_put (json : Json) (h : ∀ member ∈ members, member.1 ≠ name) :
    (put name json members).Perm ((name, json) :: members) := by
  induction members with
  | nil => exact .refl _
  | cons first rest ih =>
    have hne : name ≠ first.1 := (h first List.mem_cons_self).symm
    rw [put, if_neg hne]
    split
    · exact .refl _
    · exact ((ih fun member hmem => h member (.tail _ hmem)).cons first).trans (.swap _ _ rest)

theorem perm_foldl_put (kept : Members) (h : ((kept ++ members).map (·.1)).Nodup) :
    (members.foldl (fun kept member => put member.1 member.2 kept) kept).Perm
      (kept ++ members) := by
  induction members generalizing kept with
  | nil => rw [List.foldl_nil, List.append_nil]
  | cons first rest ih =>
    have hmiddle : (first :: (kept ++ rest)).Perm (kept ++ first :: rest) := List.perm_middle.symm
    have hnodup : ((first :: (kept ++ rest)).map (·.1)).Nodup :=
      (hmiddle.map _).nodup_iff.mpr h
    have hnew : ∀ member ∈ kept, member.1 ≠ first.1 := by
      intro member hmem he
      rw [List.map_cons, List.nodup_cons, ← he] at hnodup
      exact hnodup.1 (List.mem_map_of_mem (List.mem_append_left _ hmem))
    have hput := (perm_put first.2 hnew).append_right rest
    have hkept : ((put first.1 first.2 kept ++ rest).map (·.1)).Nodup :=
      (hput.map _).nodup_iff.mpr hnodup
    exact ((ih _ hkept).trans hput).trans hmiddle

/-- Members of different names are only put in order. -/
theorem perm_ofMembers (h : (members.map (·.1)).Nodup) : (ofMembers members).Perm members :=
  perm_foldl_put [] h

/-! ## Canonical values -/

mutual

/-- A canonical value is settled. -/
theorem settle_of_canonical : (json : Json) → json.Canonical → json.settle = json
  | .null, _ | .bool _, _ | .integer _, _ | .double _, _ | .string _, _ => rfl
  | .array items, h => congrArg array (settleItems_of_canonical items h)
  | .object members, h => by
    rw [Canonical] at h
    rw [settle, settleMembers_of_canonical members h.2, ofMembers_of_pairwise h.1]

theorem settleItems_of_canonical : (items : List Json) → CanonicalItems items →
    settleItems items = items
  | [], _ => rfl
  | item :: rest, h => by
    rw [CanonicalItems] at h
    rw [settleItems, settle_of_canonical item h.1, settleItems_of_canonical rest h.2]

theorem settleMembers_of_canonical : (members : Members) → CanonicalMembers members →
    settleMembers members = members
  | [], _ => rfl
  | (name, json) :: rest, h => by
    rw [CanonicalMembers] at h
    rw [settleMembers, settle_of_canonical json h.1, settleMembers_of_canonical rest h.2]

end

end FieldCatalog.Json
