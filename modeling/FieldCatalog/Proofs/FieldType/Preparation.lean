import FieldCatalog.Proofs.FieldType.Refusal
import FieldCatalog.Proofs.Json.Roundtrip

/-!
# Prepared configurations

A configuration is prepared when its type is known, it is an object, and the type accepts it. What is
stored then is the text of the object as it was given: the type has no say in that. A built-in type
remembers nothing, so it gives the same verdict on the object that is read from the text.

## Main definitions

* `Registry.Accepts`: a configuration that its type has nothing against
* `Registry.Confirms`: a text that is read, accepted and prepared as itself

## Main results

* `Registry.prepare_eq_ok_iff`: when a configuration is prepared, and what its text is
* `Registry.text_of_prepare`: the text is that of the configuration
* `Registry.exists_rule_of_resolve_builtin`, `Registry.prepare_builtin_apply`: the verdict of the
  built-in types
* `Registry.prepare_of_not_mem_tags`, `Registry.prepare_builtin_of_not_accepts`,
  `Registry.Accepts.prepare`: what preparing a configuration leads to
* `Registry.confirms_of_prepare`: a built-in type confirms what it has prepared
-/

namespace FieldCatalog

namespace Check

variable {σ α β : Type}

theorem bind_apply (check : Check σ α) (f : α → Check σ β) (outlook : Outlook) (state : σ) :
    (check >>= f) outlook state = match check outlook state with
      | (.ok a, state') => f a outlook state'
      | (.error e, state') => (.error e, state') := by
  show ExceptT.bindCont (fun a => f a outlook) (check outlook state).1 (check outlook state).2 = _
  rcases check outlook state with ⟨_ | _, _⟩ <;> rfl

end Check

namespace Registry

variable {σ : Type} {r : Registry σ} {tag : String} {configdata : Option Json} {outlook : Outlook}
  {state state' : σ} {text : String}

/-- A configuration is prepared when its type is known, it is an object, and the type accepts it. -/
theorem prepare_eq_ok_iff :
    r.prepare tag configdata outlook state = (.ok text, state') ↔
      ∃ type members, r.resolve tag = .ok type ∧ configdata.getD (.object []) = .object members ∧
        type.check members outlook state = (.ok (), state') ∧
        (Json.object members).render = text := by
  simp only [prepare, Check.bind_apply, FieldType.answer]
  constructor
  · intro h
    cases hresolve : r.resolve tag with
    | error e =>
      rw [hresolve] at h
      cases h
    | ok type =>
      simp only [hresolve] at h
      cases hobject : configdata.getD (.object []) with
      | object members =>
        -- What is left is the verdict of the type.
        simp only [hobject, Check.bind_apply] at h
        cases hcheck : type.check members outlook state with
        | mk result state'' =>
          rw [hcheck] at h
          cases result with
          | error e => cases h
          | ok _ =>
            cases h
            exact ⟨type, members, rfl, rfl, hcheck, rfl⟩
      | _ =>
        simp only [hobject] at h
        cases h
  · rintro ⟨type, members, hresolve, hobject, hcheck, rfl⟩
    simp only [hresolve, hobject, Check.bind_apply, hcheck]
    rfl

/-- What is stored is the text of the configuration as it was given. -/
theorem text_of_prepare {json : Json}
    (h : r.prepare tag (some json) outlook state = (.ok text, state')) : text = json.render := by
  obtain ⟨_, members, -, hobject, -, rfl⟩ := prepare_eq_ok_iff.mp h
  rw [← hobject, Option.getD_some]

/-- A text that stands for a configuration of a registered type: it is read as an object, the type
accepts the object, and the object is prepared as this text, whatever the types remember. -/
def Confirms (r : Registry σ) (tag text : String) : Prop :=
  ∃ type members, r.resolve tag = .ok type ∧ Json.parse text = .ok (.object members) ∧
    (∀ outlook state, type.check members outlook state = (.ok (), state)) ∧
    ∀ outlook state, r.prepare tag (some (.object members)) outlook state = (.ok text, state)

theorem find?_of_resolve {type : FieldType σ} (h : r.resolve tag = .ok type) :
    r.find? tag = some type := by
  unfold resolve at h
  split at h
  · next hfind =>
    cases h
    exact hfind
  · cases h

theorem mem_builtin_of_resolve {type : FieldType σ} (h : Registry.builtin.resolve tag = .ok type) :
    type ∈ FieldType.builtin σ :=
  List.mem_of_find?_eq_some (find?_of_resolve h)

theorem tag_of_resolve {type : FieldType σ} (h : r.resolve tag = .ok type) : type.tag = tag := by
  have hfound := find?_of_resolve h
  unfold find? at hfound
  simpa using List.find?_some hfound

theorem mem_tags_iff : tag ∈ r.tags ↔ (r.find? tag).isSome = true := by
  rw [tags, List.mem_map, find?, List.find?_isSome]
  simp only [beq_iff_eq]

theorem exists_resolve_of_mem_tags (h : tag ∈ r.tags) : ∃ type, r.resolve tag = .ok type := by
  obtain ⟨type, hfind⟩ := Option.isSome_iff_exists.mp (mem_tags_iff.mp h)
  exact ⟨type, by rw [resolve, hfind]⟩

theorem resolve_of_not_mem_tags (h : tag ∉ r.tags) :
    r.resolve tag = .error (.unknownFieldType tag) := by
  have hfind : r.find? tag = none := Option.not_isSome_iff_eq_none.mp (mt mem_tags_iff.mpr h)
  rw [resolve, hfind]

/-- A built-in type gives the verdict of a rule, which does not depend on what types remember, and
remembers nothing of it. -/
theorem exists_rule_of_resolve_builtin {type : FieldType σ}
    (h : Registry.builtin.resolve tag = .ok type) :
    ∃ rule : Rule, (∀ members, FailsWith (FieldType.IsInvalid tag) (rule members)) ∧
      ∀ members outlook state, type.check members outlook state = (rule members, state) := by
  obtain ⟨rule, hfails, htype⟩ := FieldType.exists_rule_of_mem_builtin (mem_builtin_of_resolve h)
  rw [tag_of_resolve h] at hfails htype
  exact ⟨rule, hfails, htype ▸ fun _ _ _ => rfl⟩

/-- The verdict of the built-in types does not depend on what types remember, and they remember
nothing of it. -/
theorem prepare_builtin_apply (tag : String) (configdata : Option Json) (outlook : Outlook) :
    ∃ result, ∀ state : σ,
      Registry.builtin.prepare tag configdata outlook state = (result, state) := by
  simp only [prepare, Check.bind_apply, FieldType.answer]
  cases htype : Registry.builtin.resolve tag with
  | error e => exact ⟨.error e, fun _ => rfl⟩
  | ok type =>
    obtain ⟨rule, -, hcheck⟩ := exists_rule_of_resolve_builtin htype
    cases configdata.getD (.object []) with
    | object members =>
      refine ⟨(rule members).map fun _ => (Json.object members).render, fun state => ?_⟩
      simp only [Check.bind_apply, hcheck]
      cases rule members <;> rfl
    | _ => exact ⟨.error (FieldType.invalid tag "configdata must be a JSON object"), fun _ => rfl⟩

/-! ## What preparing leads to -/

/-- A configuration that a registered type accepts: it is an object, which the type has nothing
against, whatever the types remember. -/
def Accepts (r : Registry σ) (tag : String) (configdata : Option Json) : Prop :=
  ∃ type members, r.resolve tag = .ok type ∧ configdata.getD (.object []) = .object members ∧
    ∀ outlook state, type.check members outlook state = (.ok (), state)

/-- What is accepted is prepared as the text that it was given. -/
theorem Accepts.prepare (h : r.Accepts tag configdata) (outlook : Outlook) (state : σ) :
    r.prepare tag configdata outlook state =
      (.ok (configdata.getD (.object [])).render, state) := by
  obtain ⟨type, members, hresolve, hobject, haccepts⟩ := h
  rw [hobject]
  exact prepare_eq_ok_iff.mpr ⟨type, members, hresolve, hobject, haccepts outlook state, rfl⟩

/-- Nothing is prepared for a type that is not registered. -/
theorem prepare_of_not_mem_tags (htag : tag ∉ r.tags) (outlook : Outlook) (state : σ) :
    r.prepare tag configdata outlook state = (.error (.unknownFieldType tag), state) := by
  simp only [Registry.prepare, Check.bind_apply, FieldType.answer, resolve_of_not_mem_tags htag]

/-- What a built-in type does not accept is refused as invalid for this type. -/
theorem prepare_builtin_of_not_accepts (htag : tag ∈ (Registry.builtin (σ := σ)).tags)
    (h : ¬ (Registry.builtin (σ := σ)).Accepts tag configdata) :
    ∃ message, ∀ outlook (state : σ), Registry.builtin.prepare tag configdata outlook state =
      (.error (FieldType.invalid tag message), state) := by
  obtain ⟨type, hresolve⟩ := exists_resolve_of_mem_tags htag
  obtain ⟨rule, hfails, hcheck⟩ := exists_rule_of_resolve_builtin hresolve
  simp only [Registry.prepare, Check.bind_apply, FieldType.answer, hresolve]
  cases hobject : configdata.getD (.object []) with
  | object members =>
    cases hrule : rule members with
    | error e =>
      obtain ⟨message, rfl⟩ := hfails members e hrule
      exact ⟨message, fun outlook state => by simp only [Check.bind_apply, hcheck, hrule]⟩
    | ok _ =>
      exact absurd ⟨type, members, hresolve, hobject, fun _ _ => by rw [hcheck, hrule]⟩ h
  | _ => exact ⟨"configdata must be a JSON object", fun _ _ => rfl⟩

/-- A built-in type confirms what it has prepared, if the configuration can be read back. -/
theorem confirms_of_prepare (hreadable : ∀ json, configdata = some json → json.Readable)
    (h : Registry.builtin.prepare tag configdata outlook state = (.ok text, state')) :
    (Registry.builtin (σ := σ)).Confirms tag text := by
  obtain ⟨type, members, hresolve, hobject, hcheck, rfl⟩ := prepare_eq_ok_iff.mp h
  have hmembers : (Json.object members).Readable := by
    cases configdata with
    | none =>
      obtain rfl : [] = members := Json.object.inj hobject
      exact ⟨⟨.nil, trivial⟩, trivial, by decide⟩
    | some json => exact hobject ▸ hreadable json rfl
  obtain ⟨rule, -, hrule⟩ := exists_rule_of_resolve_builtin hresolve
  have haccepts : ∀ outlook state, type.check members outlook state = (.ok (), state) := by
    rw [hrule] at hcheck
    intro outlook state
    rw [hrule, (Prod.mk.inj hcheck).1]
  refine ⟨type, members, hresolve, Json.parse_render hmembers, haccepts, fun outlook state => ?_⟩
  exact prepare_eq_ok_iff.mpr ⟨type, members, hresolve, rfl, haccepts outlook state, rfl⟩

end Registry

end FieldCatalog
