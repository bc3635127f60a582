import FieldCatalog.Proofs.FieldType.Preparation
import FieldCatalog.Proofs.Text.Identifier
import FieldCatalog.Session

/-!
# Registrations

A registry grows by one type at a time. A type is taken in if its tag is well formed and free, and
the registry stays what it is otherwise. Whatever is offered to it, a registry that begins with no
types or with the built-in ones keeps its tags in order and remembers the type that came first.

## Main definitions

* `Registry.offer`: what the registration of a type answers, and the registry it leaves
* `Registry.enrol`: the registry after a list of types has been offered to it
* `Registry.Orderly`: well-formed tags in ascending order

## Main results

* `Registry.offer_cases`: all that a registration can lead to
* `Registry.find?_enrol`: the type of a tag after a list of registrations
* `Registry.Orderly.enrol`: tags stay well formed and in order
* `Registry.enrol_outcomes`: the tags, the types and the answers of a registry that has grown
* `Registry.eq_enrol_of_registerAll`: the registry of a session has grown so
-/

namespace FieldCatalog.Registry

variable {σ : Type} {r : Registry σ} {tag : String} {type : FieldType σ} {types : List (FieldType σ)}

/-- What the registration of a type is answered with, and the registry that is left then: a type
that is refused is not taken in. -/
def offer (r : Registry σ) (type : FieldType σ) : Except Failure Unit × Registry σ :=
  match r.register type with
  | .ok r => (.ok (), r)
  | .error e => (.error e, r)

/-- The registry after types have been offered to it one after another. -/
def enrol (r : Registry σ) (types : List (FieldType σ)) : Registry σ :=
  types.foldl (fun r type => (r.offer type).2) r

@[simp]
theorem enrol_cons (r : Registry σ) (type : FieldType σ) (types : List (FieldType σ)) :
    r.enrol (type :: types) = (r.offer type).2.enrol types := rfl

/-! ## One registration -/

/-- All that a registration can lead to. -/
theorem offer_cases (r : Registry σ) (type : FieldType σ) :
    (isTag type.tag.toList = true ∧ type.tag ∉ r.tags ∧
      r.offer type = (.ok (), ⟨insertByTag type r.types⟩)) ∨
    ((isTag type.tag.toList = false ∨ type.tag ∈ r.tags) ∧
      ∃ text, r.offer type = (.error (.config text), r)) := by
  unfold offer register
  cases htag : isTag type.tag.toList with
  | false => exact .inr ⟨.inl rfl, _, rfl⟩
  | true =>
    cases hfind : (r.find? type.tag).isSome with
    | true => exact .inr ⟨.inr (mem_tags_iff.mpr hfind), _, rfl⟩
    | false => exact .inl ⟨rfl, fun h => Bool.false_ne_true (hfind ▸ mem_tags_iff.mp h), rfl⟩

/-- A type at its place is found under its own tag, if that was free, and the other types are found
as before. -/
theorem find?_insertByTag (hfree : type.tag ∉ types.map FieldType.tag) :
    (insertByTag type types).find? (fun other => other.tag == tag) =
      (types.find? fun other => other.tag == tag).or
        ([type].find? fun other => other.tag == tag) := by
  induction types with
  | nil => rfl
  | cons other rest ih =>
    unfold insertByTag
    split
    · -- The type comes first, and what follows does not have its tag.
      rw [List.find?_cons, List.find?_singleton]
      cases htag : type.tag == tag with
      | false => exact Option.or_none.symm
      | true =>
        have hnone : ((other :: rest).find? fun other => other.tag == tag) = none := by
          refine List.find?_eq_none.mpr fun row hrow heq => hfree ?_
          exact List.mem_map.mpr ⟨row, hrow, (beq_iff_eq.mp heq).trans (beq_iff_eq.mp htag).symm⟩
        rw [hnone]
        rfl
    · rw [List.find?_cons, List.find?_cons, ih fun h => hfree (.tail _ h)]
      cases other.tag == tag <;> rfl

/-- A registration concerns the tag of its type only, and no type that is there already. -/
theorem find?_offer (r : Registry σ) (type : FieldType σ) (tag : String) :
    (r.offer type).2.find? tag = (r.find? tag).or
      ([type].find? fun type => isTag type.tag.toList && type.tag == tag) := by
  rw [List.find?_singleton]
  obtain ⟨hwell, hfree, hoffer⟩ | ⟨hrefused, text, hoffer⟩ := offer_cases r type
  · rw [hoffer, find?, find?_insertByTag hfree, find?, List.find?_singleton, hwell, Bool.true_and]
  · rw [hoffer]
    cases hnew : isTag type.tag.toList && type.tag == tag with
    | false => exact Option.or_none.symm
    | true =>
      -- A well-formed type is refused for the sake of the one that is there.
      obtain ⟨hwell, htag⟩ := (Bool.and_eq_true _ _).to_iff.mp hnew
      have htaken : type.tag ∈ r.tags := hrefused.resolve_left fun h => by simp [h] at hwell
      rw [beq_iff_eq.mp htag] at htaken
      exact (Option.or_of_isSome (mem_tags_iff.mp htaken)).symm

theorem mem_insertByTag {row : FieldType σ} :
    row ∈ insertByTag type types ↔ row = type ∨ row ∈ types := by
  induction types with
  | nil => simp [insertByTag]
  | cons other rest ih =>
    unfold insertByTag
    split
    · exact List.mem_cons
    · rw [List.mem_cons, ih, List.mem_cons, or_left_comm]

/-! ## Order -/

/-- Tags are well formed, and they ascend. -/
structure Orderly (r : Registry σ) : Prop where
  wellFormed : ∀ tag ∈ r.tags, isTag tag.toList = true
  ascending : r.tags.Pairwise (· < ·)

theorem orderly_empty : (empty : Registry σ).Orderly :=
  ⟨fun _ h => absurd h List.not_mem_nil, .nil⟩

theorem orderly_builtin : (builtin : Registry σ).Orderly where
  wellFormed := by
    show ∀ tag ∈ ["checkbox", "date", "select", "text", "textarea"], isTag tag.toList = true
    decide
  ascending := by
    show ["checkbox", "date", "select", "text", "textarea"].Pairwise (· < ·)
    decide

theorem pairwise_insertByTag (hfree : type.tag ∉ types.map FieldType.tag)
    (h : types.Pairwise fun a b => a.tag < b.tag) :
    (insertByTag type types).Pairwise fun a b => a.tag < b.tag := by
  induction types with
  | nil => exact List.pairwise_singleton _ _
  | cons other rest ih =>
    obtain ⟨hother, hrest⟩ := List.pairwise_cons.mp h
    unfold insertByTag
    split
    · next hlt =>
      refine List.pairwise_cons.mpr ⟨List.forall_mem_cons.mpr ⟨hlt, fun row hrow => ?_⟩, h⟩
      exact lt_trans hlt (hother row hrow)
    · next hge =>
      have hne : other.tag ≠ type.tag := fun he => hfree (List.mem_cons.mpr (.inl he.symm))
      refine List.pairwise_cons.mpr ⟨fun row hrow => ?_, ih (fun hmem => hfree (.tail _ hmem)) hrest⟩
      obtain rfl | hrow := mem_insertByTag.mp hrow
      · exact lt_of_le_of_ne (not_lt.mp hge) hne
      · exact hother row hrow

/-- A registration keeps tags well formed and in order. -/
theorem Orderly.offer (h : r.Orderly) (type : FieldType σ) : (r.offer type).2.Orderly := by
  obtain ⟨hwell, hfree, hoffer⟩ | ⟨-, text, hoffer⟩ := offer_cases r type
  · rw [hoffer]
    refine ⟨fun tag htag => ?_, List.pairwise_map.mpr
      (pairwise_insertByTag hfree (List.pairwise_map.mp h.ascending))⟩
    obtain ⟨row, hrow, rfl⟩ := List.mem_map.mp htag
    obtain rfl | hrow := mem_insertByTag.mp hrow
    · exact hwell
    · exact h.wellFormed _ (List.mem_map_of_mem hrow)
  · rw [hoffer]
    exact h

/-! ## A list of registrations -/

/-- However many types are offered, tags stay well formed and in order. -/
theorem Orderly.enrol (h : r.Orderly) (types : List (FieldType σ)) : (r.enrol types).Orderly := by
  induction types generalizing r with
  | nil => exact h
  | cons type rest ih => exact ih (h.offer type)

/-- The type of a tag is the one that was there, or else the first well-formed one that came. -/
theorem find?_enrol (r : Registry σ) (types : List (FieldType σ)) (tag : String) :
    (r.enrol types).find? tag = (r.find? tag).or
      (types.find? fun type => isTag type.tag.toList && type.tag == tag) := by
  induction types generalizing r with
  | nil => exact Option.or_none.symm
  | cons type rest ih =>
    rw [enrol_cons, ih, find?_offer, Option.or_assoc, ← List.find?_append, List.singleton_append]

/-- A tag stands for the first type that came under it. -/
theorem resolve_enrol_of_mem (hr : r.Orderly) (h : tag ∈ (r.enrol types).tags) :
    ∃ type, (r.enrol types).resolve tag = .ok type ∧
      (r.types ++ types).find? (fun type => type.tag == tag) = some type := by
  obtain ⟨type, hresolve⟩ := exists_resolve_of_mem_tags h
  have hfind := find?_of_resolve hresolve
  have hwell := (hr.enrol types).wellFormed tag h
  -- Among the types of a well-formed tag it makes no difference to ask for well-formed ones.
  have hfirst : (fun type : FieldType σ => isTag type.tag.toList && type.tag == tag) =
      fun type => type.tag == tag := by
    funext type
    cases htag : type.tag == tag with
    | false => exact Bool.and_false _
    | true => rw [beq_iff_eq.mp htag, hwell, Bool.true_and]
  rw [find?_enrol, hfirst] at hfind
  exact ⟨type, hresolve, List.find?_append.trans hfind⟩

/-- Beside the tags that were there, the well-formed ones among those that came. -/
theorem mem_tags_enrol (r : Registry σ) (types : List (FieldType σ)) (tag : String) :
    tag ∈ (r.enrol types).tags ↔
      tag ∈ r.tags ∨ tag.toList ∈ Text.tags ∧ tag ∈ types.map FieldType.tag := by
  rw [mem_tags_iff, find?_enrol, Option.isSome_or, Bool.or_eq_true, ← mem_tags_iff,
    ← Text.isTag_iff, List.find?_isSome, List.mem_map]
  refine or_congr Iff.rfl ⟨?_, ?_⟩
  · rintro ⟨type, htype, h⟩
    obtain ⟨hwell, htag⟩ := (Bool.and_eq_true _ _).to_iff.mp h
    obtain rfl := beq_iff_eq.mp htag
    exact ⟨hwell, type, htype, rfl⟩
  · rintro ⟨hwell, type, htype, rfl⟩
    exact ⟨type, htype, (Bool.and_eq_true _ _).to_iff.mpr ⟨hwell, beq_self_eq_true _⟩⟩

/-- The bytes of orderly tags ascend as the tags do. -/
theorem Orderly.bytes_ascending (h : r.Orderly) : (r.tags.map Text.bytes).Pairwise (· < ·) := by
  refine List.pairwise_map.mpr (h.ascending.imp_of_mem fun {a b} ha hb hlt => ?_)
  exact Text.bytes_lt_bytes (Text.isAscii_of_isTag (h.wellFormed a ha))
    (Text.isAscii_of_isTag (h.wellFormed b hb)) hlt

/-- A type is refused when its tag is malformed or taken, and that leaves the registry alone. -/
theorem offer_outcomes (r : Registry σ) (type : FieldType σ) :
    ((∃ text, (r.offer type).1 = .error (.config text)) ↔
      type.tag.toList ∉ Text.tags ∨ type.tag ∈ r.tags) ∧
    ∀ failure, (r.offer type).1 = .error failure →
      (∃ text, failure = .config text) ∧ (r.offer type).2 = r := by
  rw [← Text.isTag_iff, Bool.not_eq_true]
  obtain ⟨hwell, hfree, hoffer⟩ | ⟨hrefused, text, hoffer⟩ := offer_cases r type
  · rw [hoffer]
    have hadmitted : ¬ (isTag type.tag.toList = false ∨ type.tag ∈ r.tags) :=
      not_or.mpr ⟨ne_false_of_eq_true hwell, hfree⟩
    exact ⟨⟨fun ⟨_, h⟩ => (nomatch h), fun h => absurd h hadmitted⟩, fun failure h => (nomatch h)⟩
  · rw [hoffer]
    refine ⟨⟨fun _ => hrefused, fun _ => ⟨text, rfl⟩⟩, fun failure h => ?_⟩
    cases h
    exact ⟨⟨text, rfl⟩, rfl⟩

/-- What becomes of a registry that begins with no types or with the built-in ones, whatever types
are offered to it. Its tags ascend in the order of their bytes: the ones it began with, and the
well-formed ones that came. Each stands for the type that came first under it, and no other tag
stands for anything. One more type is refused if its tag is malformed or taken, and then the registry
stays as it is. -/
theorem enrol_outcomes {start : Registry σ} (hstart : start = empty ∨ start = builtin)
    (types : List (FieldType σ)) :
    ((start.enrol types).tags.map Text.bytes).Pairwise (· < ·) ∧
    (∀ tag, tag ∈ (start.enrol types).tags ↔
      tag ∈ start.tags ∨ tag.toList ∈ Text.tags ∧ tag ∈ types.map FieldType.tag) ∧
    (∀ tag ∈ (start.enrol types).tags, ∃ type, (start.enrol types).resolve tag = .ok type ∧
      (start.types ++ types).find? (fun type => type.tag == tag) = some type) ∧
    (∀ tag ∉ (start.enrol types).tags,
      (start.enrol types).resolve tag = .error (.unknownFieldType tag)) ∧
    ∀ type,
      ((∃ text, ((start.enrol types).offer type).1 = .error (.config text)) ↔
        type.tag.toList ∉ Text.tags ∨ type.tag ∈ (start.enrol types).tags) ∧
      ∀ failure, ((start.enrol types).offer type).1 = .error failure →
        (∃ text, failure = .config text) ∧
          ((start.enrol types).offer type).2 = start.enrol types := by
  have horderly : start.Orderly := by
    obtain rfl | rfl := hstart
    · exact orderly_empty
    · exact orderly_builtin
  exact ⟨(horderly.enrol types).bytes_ascending, mem_tags_enrol start types,
    fun _ => resolve_enrol_of_mem horderly, fun _ => resolve_of_not_mem_tags,
    offer_outcomes (start.enrol types)⟩

/-- Types that come after the built-in ones: a new one, another of the same tag, one whose tag is not
well formed, and one with the tag of a built-in type. -/
def sampleTypes : List (FieldType Unit) :=
  [.ofRule "menu" Rule.select, .ofRule "menu" Rule.text, .ofRule "Menu" Rule.date,
    .ofRule "date" Rule.text]

theorem enrol_outcomes_sample :
    "menu" ∈ (builtin.enrol sampleTypes).tags ∧ "Menu" ∉ (builtin.enrol sampleTypes).tags ∧
    (∃ type, (builtin.enrol sampleTypes).resolve "menu" = .ok type ∧
      (builtin.types ++ sampleTypes).find? (fun type => type.tag == "menu") = some type) ∧
    ∃ text, ((builtin.enrol sampleTypes).offer (.ofRule "menu" Rule.date)).1 =
      .error (.config text) := by
  obtain ⟨-, hmem, hresolve, -, hoffer⟩ := enrol_outcomes (.inr rfl) sampleTypes
  have hmenu : "menu" ∈ (builtin.enrol sampleTypes).tags := (hmem "menu").mpr (.inr (by decide))
  have hcapital : "Menu" ∉ (builtin.enrol sampleTypes).tags := mt (hmem "Menu").mp (by decide)
  exact ⟨hmenu, hcapital, hresolve "menu" hmenu, (hoffer _).1.mpr (.inr hmenu)⟩

example : (builtin.enrol sampleTypes).tags =
    ["checkbox", "date", "menu", "select", "text", "textarea"] := by
  decide

/-- A registry to which all of several types could be added has been offered them one after
another. -/
theorem eq_enrol_of_registerAll {r' : Registry σ} (h : r.registerAll types = .ok r') :
    r' = r.enrol types := by
  induction types generalizing r with
  | nil => cases h; rfl
  | cons type rest ih =>
    obtain ⟨grown, hregister, hrest⟩ := bind_eq_ok_iff.mp h
    have hoffer : (r.offer type).2 = grown := by rw [offer, hregister]
    rw [enrol_cons, hoffer]
    exact ih hrest

end FieldCatalog.Registry
