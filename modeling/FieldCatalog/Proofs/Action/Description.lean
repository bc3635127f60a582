import FieldCatalog.Action.Decode
import FieldCatalog.Proofs.Json.Spelling

/-!
# Values that describe actions

The action that a value describes depends on its tag and on the members under the names of the arguments
that go with the tag. A reader of text looks at the tag as soon as it comes to it and at the arguments
once it has read them all. In the end this makes no difference: off a text that spells a value it reads
the action that the value describes, and refuses the text just when the value describes none.

## Main definitions

* `Action.Tag.fields`: the names of the arguments that go with a tag
* `Action.Decided`: a result that fails only because a value is not what was asked for
* `Action.takeMember`, `Action.takeItem`: what one more member or item does, told by its value

## Main results

* `Action.ofArguments_congr`: an action depends on nothing but its arguments
* `Action.decided_ofJson`: a value describes an action or does not
* `Action.parse_of_spells`: an action is read off a text as the value of the text describes it
-/

namespace FieldCatalog.Action

open Json (Echoes Fault Members Reader)

/-! ## Names that an action reads -/

/-- The names of the arguments that go with a tag. -/
def Tag.fields : Tag → List String
  | .createCategory => ["component", "area", "itemid", "name"]
  | .renameCategory => ["id", "name"]
  | .deleteCategory | .deleteField => ["id"]
  | .createField => ["categoryid", "shortname", "name", "type", "description", "configdata"]
  | .moveCategory | .moveField => ["id", "direction"]
  | .dragCategory => ["id", "before"]
  | .dragField => ["id", "categoryid", "before"]

/-- The arguments are written under these names, in this order. -/
theorem map_arguments (a : Action) : a.arguments.map (·.1) = a.tag.fields := by
  cases a <;> rfl

/-- All actions but those that create an entry may be written as a list, with the same arguments. -/
theorem Tag.order?_eq_fields {tag : Tag} (hcategory : tag ≠ .createCategory)
    (hfield : tag ≠ .createField) : tag.order? = some tag.fields := by
  cases tag with
  | createCategory => exact absurd rfl hcategory
  | createField => exact absurd rfl hfield
  | _ => rfl

/-- The name of a tag is the only one under which it is found. -/
theorem tagOf_eq_ok_iff {json : Json} {tag : Tag} : tagOf json = .ok tag ↔ json = .string tag.name := by
  constructor
  · intro h
    cases json with
    | string name =>
      rw [tagOf, Json.string?, Option.bind_some] at h
      cases htag : Tag.ofName? name with
      | none =>
        rw [htag] at h
        cases h
      | some found =>
        rw [htag] at h
        cases h
        have hname := List.find?_some htag
        rw [beq_iff_eq.mp hname]
    | _ => cases h
  · rintro rfl
    rw [tagOf, Json.string?, Option.bind_some, Tag.ofName?_name]
    rfl

theorem Tag.action_notMem_fields (tag : Tag) : "action" ∉ tag.fields := by
  cases tag <;> decide

section Reading

variable {α : Type} {read : Json → Option α} {l l' : Members} {name : String} {json : Json}
  {tag : Tag}

theorem once_congr (h : (l.filter fun member => member.1 == name) = l'.filter fun member =>
    member.1 == name) : once l name = once l' name := by
  rw [once, once, h]

theorem filter_name_eq_nil (h : name ∉ l.map (·.1)) :
    (l.filter fun member => member.1 == name) = [] :=
  List.filter_eq_nil_iff.mpr fun member hmem hname =>
    h (List.mem_map.mpr ⟨member, hmem, beq_iff_eq.mp hname⟩)

theorem once_eq_none (h : name ∉ l.map (·.1)) : once l name = .ok none := by
  rw [once, filter_name_eq_nil h]

/-- The first member of a name is followed by all others of that name. -/
theorem filter_name_append (h : name ∉ l.map (·.1)) :
    ((l ++ (name, json) :: l').filter fun member => member.1 == name) =
      (name, json) :: l'.filter fun member => member.1 == name := by
  rw [List.filter_append, filter_name_eq_nil h, List.nil_append]
  exact List.filter_cons_of_pos (beq_self_eq_true name)

theorem once_eq_some (h : name ∉ l.map (·.1)) (h' : name ∉ l'.map (·.1)) :
    once (l ++ (name, json) :: l') name = .ok (some json) := by
  rw [once, filter_name_append h, filter_name_eq_nil h']

theorem once_eq_mismatch (h : name ∉ l.map (·.1)) (h' : name ∈ l'.map (·.1)) :
    once (l ++ (name, json) :: l') name = .error .mismatch := by
  obtain ⟨member, hmem, hname⟩ := List.mem_map.mp h'
  have hfilter : member ∈ l'.filter fun member => member.1 == name :=
    List.mem_filter.mpr ⟨hmem, beq_iff_eq.mpr hname⟩
  obtain ⟨other, rest, hne⟩ := List.exists_cons_of_ne_nil (List.ne_nil_of_mem hfilter)
  rw [once, filter_name_append h, hne]

/-- What stands between two lists of members does not matter to other names. -/
theorem once_middle {other : String} (h : other ≠ name) :
    once (l ++ (other, json) :: l') name = once (l ++ l') name :=
  once_congr (by
    rw [List.filter_append, List.filter_append,
      List.filter_cons_of_neg (by simpa using h)])

theorem required_congr (h : once l name = once l' name) :
    required read l name = required read l' name := by
  rw [required, required, h]

theorem optional_congr (h : once l name = once l' name) :
    optional read l name = optional read l' name := by
  rw [optional, optional, h]

theorem textOrEmpty_congr (h : once l name = once l' name) :
    textOrEmpty l name = textOrEmpty l' name := by
  rw [textOrEmpty, textOrEmpty, h]

/-- An action depends on nothing but the members under the names of its arguments. -/
theorem ofArguments_congr (h : ∀ name ∈ tag.fields, once l name = once l' name) :
    ofArguments l tag = ofArguments l' tag := by
  cases tag <;> simp only [Tag.fields, List.forall_mem_cons] at h
  case createCategory =>
    obtain ⟨hcomponent, harea, hitemid, hname, -⟩ := h
    rw [ofArguments, ofArguments, areaOf, areaOf, required_congr hcomponent, required_congr harea,
      required_congr hitemid, optional_congr hname]
  case renameCategory =>
    rw [ofArguments, ofArguments, required_congr h.1, required_congr h.2.1]
  case deleteCategory =>
    rw [ofArguments, ofArguments, required_congr h.1]
  case createField =>
    obtain ⟨hhome, hshortname, hname, htype, hdescription, hconfigdata, -⟩ := h
    rw [ofArguments, ofArguments, draftOf, draftOf, required_congr hhome, required_congr hshortname,
      required_congr hname, required_congr htype, textOrEmpty_congr hdescription,
      optional_congr hconfigdata]
  case deleteField =>
    rw [ofArguments, ofArguments, required_congr h.1]
  case moveCategory =>
    rw [ofArguments, ofArguments, required_congr h.1, required_congr h.2.1]
  case moveField =>
    rw [ofArguments, ofArguments, required_congr h.1, required_congr h.2.1]
  case dragCategory =>
    rw [ofArguments, ofArguments, required_congr h.1, optional_congr h.2.1]
  case dragField =>
    rw [ofArguments, ofArguments, required_congr h.1, optional_congr h.2.1, optional_congr h.2.2.1]

end Reading

/-! ## Values that describe no action -/

section Decided

variable {α β : Type} {result : Except Fault α} {next : α → Except Fault β} {read : Json → Option α}

/-- A result that fails only because a value does not describe what was asked for. -/
def Decided (result : Except Fault α) : Prop :=
  ∀ fault, result = .error fault → fault = .mismatch

theorem decided_ok (a : α) : Decided (.ok a) :=
  fun _ h => nomatch h

theorem decided_mismatch : Decided (.error .mismatch : Except Fault α) :=
  fun _ h => (Except.error.inj h).symm

theorem Decided.bind (h : Decided result) (hnext : ∀ a, Decided (next a)) :
    Decided (result >>= next) := by
  intro fault hfault
  cases result with
  | error _ =>
    cases hfault
    exact h fault rfl
  | ok a => exact hnext a fault hfault

theorem Decided.outcomes (h : Decided result) : (∃ a, result = .ok a) ∨ result = .error .mismatch := by
  cases result with
  | error fault => exact .inr (congrArg _ (h fault rfl))
  | ok a => exact .inl ⟨a, rfl⟩

theorem decided_demand (a : Option α) : Decided (demand a) := by
  cases a with
  | none => exact decided_mismatch
  | some a => exact decided_ok a

theorem decided_once (l : Members) (name : String) : Decided (once l name) := by
  unfold once
  split
  · exact decided_ok _
  · exact decided_ok _
  · exact decided_mismatch

theorem decided_required (l : Members) (name : String) : Decided (required read l name) :=
  (decided_once l name).bind fun _ => (decided_demand _).bind fun _ => decided_demand _

theorem decided_optional (l : Members) (name : String) : Decided (optional read l name) := by
  refine (decided_once l name).bind fun json => ?_
  split
  · exact decided_ok _
  · exact decided_ok _
  · exact (decided_demand _).bind fun _ => decided_ok _

theorem decided_textOrEmpty (l : Members) (name : String) : Decided (textOrEmpty l name) := by
  refine (decided_once l name).bind fun json => ?_
  split
  · exact decided_ok _
  · exact decided_demand _

theorem decided_areaOf (l : Members) : Decided (areaOf l) :=
  (decided_required l _).bind fun _ => (decided_required l _).bind fun _ =>
    (decided_required l _).bind fun _ => decided_ok _

theorem decided_draftOf (l : Members) : Decided (draftOf l) :=
  (decided_required l _).bind fun _ => (decided_required l _).bind fun _ =>
    (decided_required l _).bind fun _ => (decided_textOrEmpty l _).bind fun _ =>
      (decided_optional l _).bind fun _ => decided_ok _

theorem decided_ofArguments (l : Members) (tag : Tag) : Decided (ofArguments l tag) := by
  cases tag with
  | createCategory =>
    exact (decided_areaOf l).bind fun _ => (decided_optional l _).bind fun _ => decided_ok _
  | renameCategory =>
    exact (decided_required l _).bind fun _ => (decided_required l _).bind fun _ => decided_ok _
  | deleteCategory => exact (decided_required l _).bind fun _ => decided_ok _
  | createField =>
    exact (decided_required l _).bind fun _ => (decided_draftOf l).bind fun _ => decided_ok _
  | deleteField => exact (decided_required l _).bind fun _ => decided_ok _
  | moveCategory =>
    exact (decided_required l _).bind fun _ => (decided_required l _).bind fun _ => decided_ok _
  | moveField =>
    exact (decided_required l _).bind fun _ => (decided_required l _).bind fun _ => decided_ok _
  | dragCategory =>
    exact (decided_required l _).bind fun _ => (decided_optional l _).bind fun _ => decided_ok _
  | dragField =>
    exact (decided_required l _).bind fun _ => (decided_optional l _).bind fun _ =>
      (decided_optional l _).bind fun _ => decided_ok _

theorem decided_ofItems (items : List Json) (tag : Tag) : Decided (ofItems items tag) := by
  refine (decided_demand _).bind fun names => ?_
  split
  · exact decided_mismatch
  · exact decided_ofArguments _ tag

theorem decided_tagOf (json : Json) : Decided (tagOf json) :=
  decided_demand _

/-- A value describes an action or does not; there is no other failure. -/
theorem decided_ofJson (json : Json) : Decided (ofJson json) := by
  unfold ofJson
  split
  · exact (decided_once _ _).bind fun _ => (decided_demand _).bind fun _ =>
      (decided_tagOf _).bind fun _ => decided_ofArguments _ _
  · exact (decided_tagOf _).bind fun _ => decided_ofItems _ _
  · exact decided_mismatch

end Decided

/-! ## Texts -/

section Texts

variable {n : Nat} {cs rest : List Char} {json : Json} {l : Members}

/-- One more member of an action, by its value. -/
def takeMember (seen : Gathered (String × Json)) (member : String × Json) :
    Except Fault (Gathered (String × Json)) :=
  if member.1 = "action" then
    if seen.tag.isSome then .error .mismatch
    else (tagOf member.2).map fun tag => { seen with tag := some tag }
  else .ok { seen with others := member :: seen.others }

/-- One more item of an action, by its value. -/
def takeItem (seen : Gathered Json) (item : Json) : Except Fault (Gathered Json) :=
  if seen.tag.isSome then .ok { seen with others := item :: seen.others }
  else (tagOf item).map fun tag => { seen with tag := some tag }

/-- Where a value can be read, the reader of tags reads as far and finds the tag of that value. -/
theorem readTag_of_value (h : Json.value n cs = .ok (json, rest)) :
    readTag cs = (tagOf json).map fun tag => (tag, rest) := by
  unfold readTag
  rcases Json.value_cases h with ⟨m, items, tail, -, rfl, hfront, -⟩ |
    ⟨m, members, tail, -, rfl, hfront, -⟩ | hscalar
  · rw [hfront]
    rfl
  · rw [hfront]
    rfl
  · split
    · next tail hfront => exact absurd hfront (Json.front_of_scalar hscalar tail).1
    · next tail hfront => exact absurd hfront (Json.front_of_scalar hscalar tail).2
    · rw [hscalar]
      show (tagOf json >>= fun tag => Except.ok (tag, rest)) = _
      cases tagOf json <;> rfl

theorem echoes_memberStep :
    Echoes (Json.objectStep (Json.value (Json.nestingLimit - 1))) memberStep takeMember := by
  intro xs cs ys rest h
  obtain ⟨⟨name, cs₁⟩, hname, h⟩ := bind_eq_ok_iff.mp h
  obtain ⟨cs₂, hcolon, h⟩ := bind_eq_ok_iff.mp h
  obtain ⟨⟨json, rest⟩, hvalue, h⟩ := bind_eq_ok_iff.mp h
  cases h
  refine ⟨(name, json), rfl, fun seen => ?_⟩
  simp only [memberStep, takeMember, hname, hcolon, hvalue, readTag_of_value hvalue, bind, Except.bind]
  by_cases hn : name = "action"
  · rw [if_pos hn, if_pos hn]
    by_cases htag : seen.tag.isSome = true
    · rw [if_pos htag, if_pos htag]
      rfl
    · rw [if_neg htag, if_neg htag]
      cases tagOf json <;> rfl
  · rw [if_neg hn, if_neg hn]
    rfl

theorem echoes_itemStep :
    Echoes (Json.arrayStep (Json.value (Json.nestingLimit - 1))) itemStep takeItem := by
  intro xs cs ys rest h
  obtain ⟨⟨json, rest⟩, hvalue, h⟩ := bind_eq_ok_iff.mp h
  cases h
  refine ⟨json, rfl, fun seen => ?_⟩
  simp only [itemStep, takeItem, hvalue, readTag_of_value hvalue, bind, Except.bind]
  by_cases htag : seen.tag.isSome = true
  · rw [if_pos htag, if_pos htag]
    rfl
  · rw [if_neg htag, if_neg htag]
    cases tagOf json <;> rfl

/-- Members under other names are kept, the latest first. -/
theorem foldlM_takeMember (seen : Gathered (String × Json)) (h : "action" ∉ l.map (·.1)) :
    l.foldlM takeMember seen = .ok { seen with others := l.reverse ++ seen.others } := by
  induction l generalizing seen with
  | nil => rfl
  | cons member rest ih =>
    rw [List.map_cons, List.mem_cons, not_or] at h
    rw [List.foldlM_cons, takeMember, if_neg (Ne.symm h.1)]
    refine (ih _ h.2).trans ?_
    rw [List.reverse_cons, List.append_assoc, List.singleton_append]

/-- A second tag is refused wherever it stands. -/
theorem foldlM_takeMember_repeated {seen : Gathered (String × Json)} (htag : seen.tag.isSome = true)
    (h : "action" ∈ l.map (·.1)) : l.foldlM takeMember seen = .error .mismatch := by
  induction l generalizing seen with
  | nil => cases h
  | cons member rest ih =>
    rw [List.foldlM_cons, takeMember]
    by_cases hname : member.1 = "action"
    · rw [if_pos hname, if_pos htag]
      rfl
    · rw [if_neg hname]
      exact ih htag ((List.mem_cons.mp h).resolve_left (Ne.symm hname))

/-- Members that are taken one by one give the action that the whole object describes, as long as no
tag has been taken before. -/
theorem foldlM_takeMember_eq_ofJson (l others : Members) (hothers : "action" ∉ others.map (·.1)) :
    (l.foldlM takeMember ⟨none, others⟩ >>= fun seen =>
      demand seen.tag >>= ofArguments seen.others.reverse) =
      ofJson (.object (others.reverse ++ l)) := by
  -- Induction on the members up to the first tag, for all that have been taken before it.
  induction l generalizing others with
  | nil =>
    have hbefore : "action" ∉ others.reverse.map (·.1) := by
      rwa [List.map_reverse, List.mem_reverse]
    rw [List.append_nil, ofJson, once_eq_none hbefore]
    rfl
  | cons member rest ih =>
    obtain ⟨name, json⟩ := member
    by_cases hname : name = "action"
    · subst hname
      have hbefore : "action" ∉ others.reverse.map (·.1) := by
        rwa [List.map_reverse, List.mem_reverse]
      have htake : takeMember ⟨none, others⟩ ("action", json) =
          (tagOf json).map fun tag => ⟨some tag, others⟩ := rfl
      rw [List.foldlM_cons, htake, ofJson]
      by_cases hrest : "action" ∈ rest.map (·.1)
      · rw [once_eq_mismatch hbefore hrest]
        cases htag : tagOf json with
        | error fault =>
          obtain rfl := decided_tagOf json fault htag
          rfl
        | ok tag =>
          show rest.foldlM takeMember ⟨some tag, others⟩ >>= _ = _
          rw [foldlM_takeMember_repeated rfl hrest]
          rfl
      · rw [once_eq_some hbefore hrest]
        show _ = tagOf json >>= ofArguments _
        cases tagOf json with
        | error fault => rfl
        | ok tag =>
          show rest.foldlM takeMember ⟨some tag, others⟩ >>= _ = ofArguments _ tag
          rw [foldlM_takeMember _ hrest]
          show ofArguments (rest.reverse ++ others).reverse tag = _
          rw [List.reverse_append, List.reverse_reverse]
          refine ofArguments_congr fun name hmem => (once_middle fun he => ?_).symm
          exact tag.action_notMem_fields (he ▸ hmem)
    · have htake : takeMember ⟨none, others⟩ (name, json) = .ok ⟨none, (name, json) :: others⟩ :=
        if_neg hname
      have hothers' : "action" ∉ ((name, json) :: others).map (·.1) := by
        rw [List.map_cons, List.mem_cons, not_or]
        exact ⟨Ne.symm hname, hothers⟩
      have hrest := ih ((name, json) :: others) hothers'
      rw [List.reverse_cons, List.append_assoc, List.singleton_append] at hrest
      rw [List.foldlM_cons, htake]
      exact hrest

theorem foldlM_takeItem (l : List Json) (seen : Gathered Json) (htag : seen.tag.isSome = true) :
    l.foldlM takeItem seen = .ok { seen with others := l.reverse ++ seen.others } := by
  induction l generalizing seen with
  | nil => rfl
  | cons item rest ih =>
    rw [List.foldlM_cons, takeItem, if_pos htag]
    refine (ih ⟨seen.tag, item :: seen.others⟩ htag).trans ?_
    rw [List.reverse_cons, List.append_assoc, List.singleton_append]

/-- Items that are taken one by one give the action that the whole array describes. -/
theorem foldlM_takeItem_eq_ofJson (l : List Json) :
    (l.foldlM takeItem ⟨none, []⟩ >>= fun seen =>
      demand seen.tag >>= ofItems seen.others.reverse) = ofJson (.array l) := by
  cases l with
  | nil => rfl
  | cons json items =>
    have htake : takeItem ⟨none, []⟩ json = (tagOf json).map fun tag => ⟨some tag, []⟩ := rfl
    rw [List.foldlM_cons, htake, ofJson]
    cases tagOf json with
    | error fault => rfl
    | ok tag =>
      show items.foldlM takeItem ⟨some tag, []⟩ >>= _ = ofItems items tag
      rw [foldlM_takeItem items _ rfl]
      show ofItems (items.reverse ++ []).reverse tag = _
      rw [List.append_nil, List.reverse_reverse]

/-- What is made of all that has been gathered does not depend on where the reading ends. -/
theorem finish_bind {α : Type} (tag : Except Fault Tag) (finish : Tag → Except Fault α) :
    (tag >>= fun tag => finish tag >>= fun a => .ok (a, rest)) =
      (tag >>= finish).map fun a => (a, rest) := by
  cases tag with
  | error fault => rfl
  | ok tag =>
    show (finish tag >>= _) = (finish tag).map _
    cases finish tag <;> rfl

/-- Where a value can be read, an action is read as far, and it is the one that the value describes. -/
theorem read_of_value (h : Json.value Json.nestingLimit cs = .ok (json, rest)) :
    read cs = (ofJson json).map fun action => (action, rest) := by
  unfold read
  rcases Json.value_cases h with ⟨m, items, tail, hm, rfl, hfront, hitems⟩ |
    ⟨m, members, tail, hm, rfl, hfront, hmembers⟩ | hscalar
  · obtain rfl : Json.nestingLimit - 1 = m := by rw [hm, Nat.add_sub_cancel]
    obtain ⟨zs, hzs, hsequence⟩ := Json.sequence_of_echoes echoes_itemStep hitems
    obtain rfl : items = zs := by simpa using hzs
    rw [hfront, ← foldlM_takeItem_eq_ofJson]
    simp only [hsequence]
    cases items.foldlM takeItem ⟨none, []⟩ with
    | error fault => rfl
    | ok seen => exact finish_bind _ _
  · obtain rfl : Json.nestingLimit - 1 = m := by rw [hm, Nat.add_sub_cancel]
    obtain ⟨zs, hzs, hsequence⟩ := Json.sequence_of_echoes echoes_memberStep hmembers
    obtain rfl : members = zs := by simpa using hzs
    have htake := foldlM_takeMember_eq_ofJson members [] List.not_mem_nil
    rw [List.reverse_nil, List.nil_append] at htake
    rw [hfront, ← htake]
    simp only [hsequence]
    cases members.foldlM takeMember ⟨none, []⟩ with
    | error fault => rfl
    | ok seen => exact finish_bind _ _
  · have hjson : ofJson json = .error .mismatch := by
      have := Json.isScalar_of_scalar hscalar
      cases json <;> first | rfl | cases this
    rw [hjson]
    split
    · next tail hfront => exact absurd hfront (Json.front_of_scalar hscalar tail).2
    · next tail hfront => exact absurd hfront (Json.front_of_scalar hscalar tail).1
    · rw [hscalar]
      rfl

/-- An action is read off a text in one go just as if the value of the text had been read first. -/
theorem parse_of_spells {text : String} (h : Json.Spells text json) : parse text = ofJson json := by
  obtain ⟨rest, hvalue, hend⟩ := h
  rw [parse, read_of_value hvalue]
  cases ofJson json with
  | error fault => rfl
  | ok action =>
    show (Json.endOfText rest >>= fun _ => Except.ok action) = _
    rw [hend]
    rfl

end Texts

end FieldCatalog.Action
