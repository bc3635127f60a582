import FieldCatalog.Decimal.Numeral
import FieldCatalog.Proofs.Action.Description

/-!
# Actions that are read back

The text of an action is read as that action. Writing and reading agree on the name and the form of
each argument, an argument that is left open is written as null and read as missing, and the tag is
found wherever it stands among the arguments. A configuration must not be null, which would be read as
none, and without doubles it comes back as it was.

## Main definitions

* `Action.members`, `Action.text`: an action as members in the order of their declaration
* `Action.WellFormed`: numbers of 64 bits, and a configuration that can be written

## Main results

* `Action.ofArguments_of_perm`: the arguments of an action, in any order, determine it
* `Action.parse_of_perm`: so do its members as a text
* `Action.parse_text`: an action is read back from its text
-/

namespace FieldCatalog.Action

open Json (Fault Members)

/-! ## The text of an action -/

/-- The members of an action in the order of their declaration, the tag first. -/
def members (a : Action) : Members :=
  ("action", .string a.tag.name) :: a.arguments

/-- The text of an action, with its members in the order of their declaration. -/
def text (a : Action) : String :=
  (Json.object a.members).render

/-- The numbers among the arguments of an action. -/
def numbers : Action → List Int
  | .createCategory area _ => [area.itemid]
  | .renameCategory id _ | .deleteCategory id | .deleteField id | .moveCategory id _
  | .moveField id _ => [id]
  | .createField categoryid _ => [categoryid]
  | .dragCategory id before => id :: before.toList
  | .dragField id categoryid before => id :: (categoryid.toList ++ before.toList)

/-- The configuration that an action brings with it. -/
def configdata? : Action → Option Json
  | .createField _ draft => draft.configdata
  | _ => none

/-- An action whose numbers are words of 64 bits with a sign, and whose configuration is not null,
has its members in order and holds no double. -/
structure WellFormed (a : Action) : Prop where
  numbers : ∀ n ∈ a.numbers, Decimal.InWord n
  configdata : ∀ json, a.configdata? = some json → json ≠ .null ∧ json.Canonical ∧ json.Plain

/-! ## Arguments -/

variable {a : Action} {l args : Members}

/-- The names of the arguments differ from each other and from the name of the tag. -/
theorem nodup_names (a : Action) : (a.members.map (·.1)).Nodup := by
  rw [members, List.map_cons, map_arguments]
  cases a.tag <;> decide

/-- Members of different names are found once each, wherever they stand. -/
theorem once_of_perm (h : l.Perm args) (hnodup : (args.map (·.1)).Nodup) (name : String) :
    once l name = .ok (args.lookup name) := by
  have hfilter := h.filter fun member => member.1 == name
  -- Among the arguments, the members of the name are the one that is looked up, or none.
  have hargs : (args.filter fun member => member.1 == name) =
      ((args.lookup name).map fun json => (name, json)).toList := by
    clear h hfilter
    induction args with
    | nil => rfl
    | cons member rest ih =>
      obtain ⟨other, json⟩ := member
      rw [List.map_cons, List.nodup_cons] at hnodup
      by_cases he : other = name
      · subst he
        simp [filter_name_eq_nil hnodup.1]
      · have hne : (name == other) = false := beq_eq_false_iff_ne.mpr fun h => he h.symm
        rw [List.filter_cons_of_neg (by simpa using he), ih hnodup.2, List.lookup_cons, hne]
  rw [hargs] at hfilter
  unfold once
  cases hlookup : args.lookup name with
  | none =>
    rw [hlookup] at hfilter
    rw [hfilter.eq_nil]
  | some json =>
    rw [hlookup] at hfilter
    rw [List.perm_singleton.mp hfilter]

theorem signed?_integer {i : Int} (h : Decimal.InWord i) : (Json.integer i).signed? = some i :=
  if_pos h

theorem direction?_name (d : Direction) : direction? (.string d.name) = some d := by
  cases d <;> rfl

section Lookup

variable {α : Type} {read : Json → Option α} {name : String} {json : Json} {x : α}

theorem required_of_lookup (hl : ∀ name, once l name = .ok (args.lookup name))
    (hlookup : args.lookup name = some json) (hread : read json = some x) :
    required read l name = .ok x := by
  simp only [required, hl, hlookup, demand, hread, bind, Except.bind]

theorem optional_of_lookup_null (hl : ∀ name, once l name = .ok (args.lookup name))
    (hlookup : args.lookup name = some .null) : optional read l name = .ok none := by
  simp only [optional, hl, hlookup, bind, Except.bind]

theorem optional_of_lookup (hl : ∀ name, once l name = .ok (args.lookup name))
    (hlookup : args.lookup name = some json) (hne : json ≠ .null) (hread : read json = some x) :
    optional read l name = .ok (some x) := by
  cases json with
  | null => exact absurd rfl hne
  | _ => simp only [optional, hl, hlookup, demand, hread, bind, Except.bind]

theorem optional_ofString? {s : Option String} (hl : ∀ name, once l name = .ok (args.lookup name))
    (hlookup : args.lookup name = some (.ofString? s)) : optional Json.string? l name = .ok s := by
  cases s with
  | none => exact optional_of_lookup_null hl hlookup
  | some s => exact optional_of_lookup hl hlookup (by simp [Json.ofString?]) rfl

theorem optional_ofInteger? {i : Option Int} (hl : ∀ name, once l name = .ok (args.lookup name))
    (hlookup : args.lookup name = some (.ofInteger? i)) (hword : ∀ n ∈ i, Decimal.InWord n) :
    optional Json.signed? l name = .ok i := by
  cases i with
  | none => exact optional_of_lookup_null hl hlookup
  | some i =>
    exact optional_of_lookup hl hlookup (by simp [Json.ofInteger?]) (signed?_integer (hword i rfl))

/-- A configuration comes back as it was, since its members are in order. -/
theorem optional_configdata {configdata : Option Json}
    (hl : ∀ name, once l name = .ok (args.lookup name))
    (hlookup : args.lookup name = some (configdata.getD .null))
    (hconfig : ∀ json, configdata = some json → json ≠ .null ∧ json.Canonical ∧ json.Plain) :
    optional (fun json => some json.settle) l name = .ok configdata := by
  cases configdata with
  | none => exact optional_of_lookup_null hl hlookup
  | some json =>
    obtain ⟨hne, hcanonical, -⟩ := hconfig json rfl
    exact optional_of_lookup hl hlookup hne (congrArg some (Json.settle_of_canonical json hcanonical))

end Lookup

/-- The arguments of an action, in any order, determine it. -/
theorem ofArguments_of_perm (ha : a.WellFormed) (h : l.Perm a.arguments) :
    ofArguments l a.tag = .ok a := by
  have hl := once_of_perm h (List.nodup_cons.mp (nodup_names a)).2
  obtain ⟨hnumbers, hconfig⟩ := ha
  cases a with
  | createCategory area name =>
    have hcomponent : required Json.string? l "component" = .ok area.component :=
      required_of_lookup hl rfl rfl
    have harea : required Json.string? l "area" = .ok area.area := required_of_lookup hl rfl rfl
    have hitemid : required Json.signed? l "itemid" = .ok area.itemid :=
      required_of_lookup hl rfl (signed?_integer (hnumbers _ List.mem_cons_self))
    have hname : optional Json.string? l "name" = .ok name := optional_ofString? hl rfl
    simp only [tag, ofArguments, areaOf, hcomponent, harea, hitemid, hname, bind, Except.bind]
  | renameCategory id name =>
    have hid : required Json.signed? l "id" = .ok id :=
      required_of_lookup hl rfl (signed?_integer (hnumbers _ List.mem_cons_self))
    have hname : required Json.string? l "name" = .ok name := required_of_lookup hl rfl rfl
    simp only [tag, ofArguments, hid, hname, bind, Except.bind]
  | deleteCategory id =>
    have hid : required Json.signed? l "id" = .ok id :=
      required_of_lookup hl rfl (signed?_integer (hnumbers _ List.mem_cons_self))
    simp only [tag, ofArguments, hid, bind, Except.bind]
  | createField categoryid draft =>
    have hhome : required Json.signed? l "categoryid" = .ok categoryid :=
      required_of_lookup hl rfl (signed?_integer (hnumbers _ List.mem_cons_self))
    have hshortname : required Json.string? l "shortname" = .ok draft.shortname :=
      required_of_lookup hl rfl rfl
    have hname : required Json.string? l "name" = .ok draft.name := required_of_lookup hl rfl rfl
    have htype : required Json.string? l "type" = .ok draft.type := required_of_lookup hl rfl rfl
    have hdescription : textOrEmpty l "description" = .ok draft.description := by
      have honce : once l "description" = .ok (some (.string draft.description)) := hl "description"
      simp only [textOrEmpty, honce, bind, Except.bind]
      rfl
    have hconfigdata : optional (fun json => some json.settle) l "configdata" =
        .ok draft.configdata := optional_configdata hl rfl hconfig
    simp only [tag, ofArguments, draftOf, hhome, hshortname, hname, htype, hdescription,
      hconfigdata, bind, Except.bind]
  | deleteField id =>
    have hid : required Json.signed? l "id" = .ok id :=
      required_of_lookup hl rfl (signed?_integer (hnumbers _ List.mem_cons_self))
    simp only [tag, ofArguments, hid, bind, Except.bind]
  | moveCategory id direction =>
    have hid : required Json.signed? l "id" = .ok id :=
      required_of_lookup hl rfl (signed?_integer (hnumbers _ List.mem_cons_self))
    have hdirection : required direction? l "direction" = .ok direction :=
      required_of_lookup hl rfl (direction?_name direction)
    simp only [tag, ofArguments, hid, hdirection, bind, Except.bind]
  | moveField id direction =>
    have hid : required Json.signed? l "id" = .ok id :=
      required_of_lookup hl rfl (signed?_integer (hnumbers _ List.mem_cons_self))
    have hdirection : required direction? l "direction" = .ok direction :=
      required_of_lookup hl rfl (direction?_name direction)
    simp only [tag, ofArguments, hid, hdirection, bind, Except.bind]
  | dragCategory id before =>
    have hid : required Json.signed? l "id" = .ok id :=
      required_of_lookup hl rfl (signed?_integer (hnumbers _ List.mem_cons_self))
    have hbefore : optional Json.signed? l "before" = .ok before :=
      optional_ofInteger? hl rfl fun n hn => hnumbers n (by simp [numbers, Option.mem_def.mp hn])
    simp only [tag, ofArguments, hid, hbefore, bind, Except.bind]
  | dragField id categoryid before =>
    have hid : required Json.signed? l "id" = .ok id :=
      required_of_lookup hl rfl (signed?_integer (hnumbers _ List.mem_cons_self))
    have hhome : optional Json.signed? l "categoryid" = .ok categoryid :=
      optional_ofInteger? hl rfl fun n hn => hnumbers n (by simp [numbers, Option.mem_def.mp hn])
    have hbefore : optional Json.signed? l "before" = .ok before :=
      optional_ofInteger? hl rfl fun n hn => hnumbers n (by simp [numbers, Option.mem_def.mp hn])
    simp only [tag, ofArguments, hid, hhome, hbefore, bind, Except.bind]

/-! ## Texts -/

theorem canonical_of_word {i : Int} (h : Decimal.InWord i) : (Json.integer i).Canonical :=
  ⟨h.1, Int.lt_of_le_of_lt h.2 (by decide)⟩

theorem canonical_ofInteger? {i : Option Int} (h : ∀ n ∈ i, Decimal.InWord n) :
    (Json.ofInteger? i).Canonical ∧ (Json.ofInteger? i).Plain := by
  cases i with
  | none => exact ⟨trivial, trivial⟩
  | some i => exact ⟨canonical_of_word (h i rfl), trivial⟩

/-- The arguments of a well-formed action can be read back one by one. -/
theorem canonical_arguments (ha : a.WellFormed) :
    ∀ member ∈ a.arguments, member.2.Canonical ∧ member.2.Plain := by
  obtain ⟨hnumbers, hconfig⟩ := ha
  have hstring (s : String) : (Json.string s).Canonical ∧ (Json.string s).Plain := ⟨trivial, trivial⟩
  have hinteger (n : Int) (hn : n ∈ a.numbers) : (Json.integer n).Canonical ∧ (Json.integer n).Plain :=
    ⟨canonical_of_word (hnumbers n hn), trivial⟩
  cases a with
  | createCategory area name =>
    simp only [arguments, Area.members, List.cons_append, List.nil_append, List.forall_mem_cons]
    refine ⟨hstring _, hstring _, hinteger _ List.mem_cons_self, ?_, nofun⟩
    cases name with
    | none => exact ⟨trivial, trivial⟩
    | some name => exact hstring name
  | renameCategory id name =>
    simp only [arguments, List.forall_mem_cons]
    exact ⟨hinteger _ List.mem_cons_self, hstring _, nofun⟩
  | deleteCategory id =>
    simp only [arguments, List.forall_mem_cons]
    exact ⟨hinteger _ List.mem_cons_self, nofun⟩
  | createField categoryid draft =>
    simp only [arguments, List.forall_mem_cons]
    refine ⟨hinteger _ List.mem_cons_self, hstring _, hstring _, hstring _, hstring _, ?_, nofun⟩
    cases hdraft : draft.configdata with
    | none => exact ⟨trivial, trivial⟩
    | some json => exact (hconfig json hdraft).2
  | deleteField id =>
    simp only [arguments, List.forall_mem_cons]
    exact ⟨hinteger _ List.mem_cons_self, nofun⟩
  | moveCategory id direction =>
    simp only [arguments, List.forall_mem_cons]
    exact ⟨hinteger _ List.mem_cons_self, hstring _, nofun⟩
  | moveField id direction =>
    simp only [arguments, List.forall_mem_cons]
    exact ⟨hinteger _ List.mem_cons_self, hstring _, nofun⟩
  | dragCategory id before =>
    simp only [arguments, List.forall_mem_cons]
    refine ⟨hinteger _ List.mem_cons_self, canonical_ofInteger? fun n hn => ?_, nofun⟩
    exact hnumbers n (by simp [numbers, Option.mem_def.mp hn])
  | dragField id categoryid before =>
    simp only [arguments, List.forall_mem_cons]
    refine ⟨hinteger _ List.mem_cons_self, canonical_ofInteger? fun n hn => ?_,
      canonical_ofInteger? fun n hn => ?_, nofun⟩
    · exact hnumbers n (by simp [numbers, Option.mem_def.mp hn])
    · exact hnumbers n (by simp [numbers, Option.mem_def.mp hn])

/-- The members of an action, in any order, describe it. -/
theorem ofJson_of_perm (ha : a.WellFormed) (h : l.Perm a.members) : ofJson (.object l) = .ok a := by
  have hl := once_of_perm h (nodup_names a)
  have htag : once l "action" = .ok (some (.string a.tag.name)) := hl "action"
  have harguments : ofArguments l a.tag = ofArguments a.arguments a.tag := by
    refine ofArguments_congr fun name hname => ?_
    -- The tag is not among the arguments, so they are found without it.
    have hne : (name == "action") = false :=
      beq_eq_false_iff_ne.mpr fun he => a.tag.action_notMem_fields (he ▸ hname)
    rw [hl, once_of_perm (.refl _) (List.nodup_cons.mp (nodup_names a)).2, members, List.lookup_cons,
      hne]
  rw [ofJson, htag]
  show tagOf (.string a.tag.name) >>= ofArguments l = _
  rw [tagOf_eq_ok_iff.mpr rfl]
  exact harguments.trans (ofArguments_of_perm ha (.refl _))

/-- So do they as a text. -/
theorem parse_of_perm (ha : a.WellFormed) (hdepth : (Json.object a.members).depth ≤ Json.nestingLimit)
    (h : l.Perm a.members) : parse (Json.object l).render = .ok a := by
  have hmembers : ∀ member ∈ l, member.2.Canonical ∧ member.2.Plain ∧
      member.2.depth ≤ Json.nestingLimit - 1 := by
    intro member hmem
    have hmem : member ∈ a.members := h.mem_iff.mp hmem
    have hle : member.2.depth ≤ Json.nestingLimit - 1 :=
      Nat.le_sub_of_add_le (Nat.le_trans (Nat.succ_le_succ (Json.depth_le_of_mem hmem)) hdepth)
    rcases List.mem_cons.mp hmem with rfl | hmem
    · exact ⟨trivial, trivial, hle⟩
    · obtain ⟨hcanonical, hplain⟩ := canonical_arguments ha member hmem
      exact ⟨hcanonical, hplain, hle⟩
  rw [parse_of_spells (Json.spells_members hmembers), ofJson_of_perm ha h]

/-- An action is read back from its text, whether its members stand in the order of their declaration
or in that of their names. -/
theorem parse_text (ha : a.WellFormed) (hdepth : (Json.object a.members).depth ≤ Json.nestingLimit) :
    parse a.text = .ok a ∧ parse a.toJson.render = .ok a :=
  ⟨parse_of_perm ha hdepth (.refl _),
    parse_of_perm ha hdepth (Json.perm_ofMembers (nodup_names a))⟩

example : (dragCategory 5 none).text =
    "\x7b\"action\":\"drag_category\",\"id\":5,\"before\":null\x7d" := by
  decide

/-- A configuration with a control character in a name, the largest number, and containers within
containers. -/
def sampleConfigdata : Json :=
  .object [("a\x01", .array [.null, .integer 18446744073709551615, .string "\\ \"π\" \n"]),
    ("b", .object [("", .bool true)])]

theorem readable_sampleConfigdata : sampleConfigdata.Readable :=
  ⟨by decide, by decide, by decide⟩

theorem parse_text_sample :
    let a : Action := .createField (-9) ⟨"note", "Note\t1", "textarea", "", some sampleConfigdata⟩
    a.WellFormed ∧ (Json.object a.members).depth ≤ Json.nestingLimit ∧
      parse a.text = .ok a ∧ parse a.toJson.render = .ok a := by
  intro a
  have ha : a.WellFormed := by
    refine ⟨by decide, fun json h => ?_⟩
    obtain rfl : sampleConfigdata = json := Option.some.inj h
    exact ⟨by simp [sampleConfigdata], readable_sampleConfigdata.canonical,
      readable_sampleConfigdata.plain⟩
  have hdepth : (Json.object a.members).depth ≤ Json.nestingLimit := by decide
  exact ⟨ha, hdepth, parse_text ha hdepth⟩

end FieldCatalog.Action
