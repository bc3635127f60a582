import FieldCatalog.Proofs.Action.Roundtrip

/-!
# One action, many spellings

An action does not depend on how it is spelled. Its members may stand in any order and among others
that it does not read; an action that does not create an entry may also be a list of its tag and the
first of its arguments, and too many items are refused. Where one spelling describes no action, none
does, and the failure is the same.

## Main definitions

* `Action.Respells`: the same members in any order, and further ones that the action does not read

## Main results

* `Action.ofJson_of_respells`: such members describe the same action
* `Action.ofJson_list_of_le`: a list describes what its items describe under the names of the arguments
* `Action.parse_respelled`: so it is for texts, and a text that spells a value has no other failure than
  that the value describes no action
-/

namespace FieldCatalog.Action

open Json (Members)

variable {members added members' : Members} {tag : Tag} {items : List Json}

/-! ## Objects -/

/-- The members of an object in any order, with further members under other names: none of them is the
tag or, where the object has the tag of an action, an argument of that action. -/
structure Respells (members added members' : Members) : Prop where
  perm : members'.Perm (members ++ added)
  nodup : ((members ++ added).map (·.1)).Nodup
  unread : ∀ name ∈ added.map (·.1), name ≠ "action" ∧
    ∀ tag : Tag, members.lookup "action" = some (.string tag.name) → name ∉ tag.fields

theorem Respells.nodup_members (h : Respells members added members') :
    (members.map (·.1)).Nodup := by
  have hnodup := h.nodup
  rw [List.map_append, List.nodup_append] at hnodup
  exact hnodup.1

/-- A name that is not among the further members is found as before. -/
theorem Respells.once_eq (h : Respells members added members') {name : String}
    (hname : name ∉ added.map (·.1)) : once members' name = once members name := by
  have hadded : added.lookup name = none :=
    List.lookup_eq_none_iff.mpr fun member hmem =>
      bne_iff_ne.mpr fun he => hname (List.mem_map.mpr ⟨member, hmem, he.symm⟩)
  rw [once_of_perm h.perm h.nodup, once_of_perm (.refl _) h.nodup_members, List.lookup_append, hadded,
    Option.or_none]

/-- The order and the further members make no difference to the action. -/
theorem ofJson_of_respells (h : Respells members added members') :
    ofJson (.object members') = ofJson (.object members) := by
  have htag : once members' "action" = once members "action" :=
    h.once_eq fun hmem => (h.unread _ hmem).1 rfl
  rw [ofJson, ofJson, htag, once_of_perm (.refl _) h.nodup_members]
  cases hlookup : members.lookup "action" with
  | none => rfl
  | some json =>
    show tagOf json >>= ofArguments members' = tagOf json >>= ofArguments members
    cases hjson : tagOf json with
    | error fault => rfl
    | ok tag =>
      have hname : members.lookup "action" = some (.string tag.name) := by
        rw [hlookup, tagOf_eq_ok_iff.mp hjson]
      exact ofArguments_congr fun name hmem =>
        h.once_eq fun hadded => (h.unread name hadded).2 tag hname hmem

/-- An object whose first member is the tag describes what its other members describe. -/
theorem ofJson_tagged (hmembers : "action" ∉ members.map (·.1)) :
    ofJson (.object (("action", .string tag.name) :: members)) = ofArguments members tag := by
  have honce : once (("action", .string tag.name) :: members) "action" =
      .ok (some (.string tag.name)) := once_eq_some (l := []) List.not_mem_nil hmembers
  rw [ofJson, honce]
  show tagOf (.string tag.name) >>= ofArguments _ = _
  rw [tagOf_eq_ok_iff.mpr rfl]
  refine ofArguments_congr fun name hmem => once_middle (l := []) fun he => ?_
  exact tag.action_notMem_fields (he ▸ hmem)

/-! ## Lists -/

/-- The items of a list are the arguments in their order, of which there must not be too many. -/
theorem ofJson_list (hcategory : tag ≠ .createCategory) (hfield : tag ≠ .createField)
    (items : List Json) : ofJson (.array (.string tag.name :: items)) =
      if tag.fields.length < items.length then .error .mismatch
      else ofArguments (tag.fields.zip items) tag := by
  rw [ofJson, tagOf_eq_ok_iff.mpr rfl]
  show ofItems items tag = _
  rw [ofItems, Tag.order?_eq_fields hcategory hfield]
  rfl

/-- Not too many items describe what they describe under the names of the arguments. -/
theorem ofJson_list_of_le (hcategory : tag ≠ .createCategory) (hfield : tag ≠ .createField)
    (hlength : items.length ≤ tag.fields.length) : ofJson (.array (.string tag.name :: items)) =
      ofJson (.object (("action", .string tag.name) :: tag.fields.zip items)) := by
  have hmembers : "action" ∉ (tag.fields.zip items).map (·.1) := by
    intro hmem
    obtain ⟨⟨name, json⟩, hmem, rfl⟩ := List.mem_map.mp hmem
    exact tag.action_notMem_fields (List.of_mem_zip hmem).1
  rw [ofJson_list hcategory hfield, if_neg (Nat.not_lt_of_le hlength), ofJson_tagged hmembers]

/-! ## Texts -/

/-- Texts of the same members in any order, and with further members that are not read, give the same
action, or are refused alike because they describe none. So do, for an action that does not create an
entry, a list of its tag and values and the object that has these values under the names of the
arguments; a list with more values describes no action. -/
theorem parse_respelled :
    (∀ text text' members added members',
      Json.Spells text (.object members) → Json.Spells text' (.object members') →
      Respells members added members' →
        parse text' = parse text ∧ ((∃ a, parse text = .ok a) ∨ parse text = .error .mismatch)) ∧
    ∀ tag : Tag, tag ≠ .createCategory → tag ≠ .createField →
      ∀ text items, Json.Spells text (.array (.string tag.name :: items)) →
        (items.length ≤ tag.fields.length → ∀ text',
          Json.Spells text' (.object (("action", .string tag.name) :: tag.fields.zip items)) →
            parse text = parse text') ∧
        (tag.fields.length < items.length → parse text = .error .mismatch) := by
  constructor
  · intro text text' members added members' htext htext' h
    rw [parse_of_spells htext, parse_of_spells htext']
    exact ⟨ofJson_of_respells h, (decided_ofJson _).outcomes⟩
  · intro tag hcategory hfield text items htext
    constructor
    · intro hlength text' htext'
      rw [parse_of_spells htext, parse_of_spells htext', ofJson_list_of_le hcategory hfield hlength]
    · intro hlength
      rw [parse_of_spells htext, ofJson_list hcategory hfield, if_pos hlength]

theorem parse_respelled_sample :
    let members : Members := [("action", .string "drag_field"), ("id", .integer 7), ("before", .null)]
    let added : Members := [("note", .array [.object [("id", .string "\t")]])]
    let members' : Members := [("note", .array [.object [("id", .string "\t")]]), ("before", .null),
      ("id", .integer 7), ("action", .string "drag_field")]
    let tagged : Members := [("action", .string "drag_field"), ("id", .integer 7)]
    let short : Json := .array [.string "drag_field", .integer 7]
    let long : Json := .array [.string "delete_field", .integer 7, .null]
    let text := "\x7b\"action\":\"drag_field\",\"id\":7,\"before\":null\x7d"
    let text' := "\x7b\"note\":[\x7b\"id\":\"\\t\"\x7d],\"before\":null," ++
      "\"id\":7,\"action\":\"drag_field\"\x7d"
    let tagText := "\x7b\"action\":\"drag_field\",\"id\":7\x7d"
    let shortText := "[\"drag_field\",7]"
    let longText := "[\"delete_field\",7,null]"
    (Json.Spells text (.object members) ∧ Json.Spells text' (.object members') ∧
      Respells members added members' ∧ Json.Spells tagText (.object tagged) ∧
      Json.Spells shortText short ∧ Json.Spells longText long) ∧
    parse text' = parse text ∧ parse text = .ok (.dragField 7 none none) ∧
      parse shortText = parse tagText ∧ parse longText = .error .mismatch := by
  intro members added members' tagged short long text text' tagText shortText longText
  have htext : Json.Spells text (.object members) := by
    have hrender : (Json.object members).render = text := by decide
    exact hrender ▸ Json.spells_members (by decide)
  have htext' : Json.Spells text' (.object members') := by
    have hrender : (Json.object members').render = text' := by decide
    exact hrender ▸ Json.spells_members (by decide)
  have hrespells : Respells members added members' := by
    refine ⟨List.reverse_perm (members ++ added), by decide, fun name hname => ?_⟩
    obtain rfl := List.mem_singleton.mp hname
    exact ⟨by decide, fun tag _ => by cases tag <;> decide⟩
  have htagged : Json.Spells tagText (.object tagged) := by
    have hrender : (Json.object tagged).render = tagText := by decide
    exact hrender ▸ Json.spells_members (by decide)
  have hshort : Json.Spells shortText short := by
    have hrender : short.render = shortText := by decide
    exact hrender ▸ Json.spells_render ⟨by decide, by decide, by decide⟩
  have hlong : Json.Spells longText long := by
    have hrender : long.render = longText := by decide
    exact hrender ▸ Json.spells_render ⟨by decide, by decide, by decide⟩
  obtain ⟨hobject, hlist⟩ := parse_respelled
  refine ⟨⟨htext, htext', hrespells, htagged, hshort, hlong⟩, ?_, ?_, ?_, ?_⟩
  · exact (hobject _ _ members added members' htext htext' hrespells).1
  · rw [parse_of_spells htext]
    rfl
  · exact (hlist .dragField nofun nofun _ [.integer 7] hshort).1 (by decide) _ htagged
  · exact (hlist .deleteField nofun nofun _ [.integer 7, .null] hlong).2 (by decide)

end FieldCatalog.Action
