import FieldCatalog.FieldType.Registry
import FieldCatalog.Proofs.Results

/-!
# Refusals

Some failures are the answer that arguments deserve: an entry does not exist, a target or a value
makes no sense. The others speak of the store, its lock or the configuration. The built-in field
types fail with refusals only, which name the type that a configuration is invalid for.

## Main definitions

* `Failure.isRefusal`: the failures that arguments deserve
* `Refuses`: a result that fails with refusals only
* `FieldType.IsInvalid`: the failure of a configuration that is invalid for a type

## Main results

* `FieldType.exists_rule_of_mem_builtin`: the built-in types follow rules that fail in their name
* `Registry.refuses_prepare_builtin`: preparing a configuration for a built-in type
-/

namespace FieldCatalog

/-- Whether a failure is the answer that arguments deserve, and not a failure of the store, of its
lock or of the configuration. -/
def Failure.isRefusal : Failure → Bool
  | notFound _ _ | invalidScope _ | invalidTarget _ _ | invalidField _ | unknownFieldType _ => true
  | _ => false

/-- A result that fails with refusals only. -/
def Refuses {α : Type} (result : Except Failure α) : Prop :=
  ∀ e, result = .error e → e.isRefusal = true

namespace Refuses

variable {α β : Type}

theorem ok (a : α) : Refuses (.ok a) :=
  FailsWith.ok a

theorem error {e : Failure} (he : e.isRefusal = true) : Refuses (.error e : Except Failure α) :=
  FailsWith.error he

theorem bind {result : Except Failure α} {f : α → Except Failure β} (h : Refuses result)
    (hf : ∀ a, Refuses (f a)) : Refuses (result >>= f) :=
  FailsWith.bind h hf

end Refuses

namespace FieldType

/-- The failure of a configuration that is invalid for the type of a tag. -/
def IsInvalid (tag : String) (e : Failure) : Prop :=
  ∃ message, e = invalid tag message

theorem failsWith_invalid {α : Type} (tag message : String) :
    FailsWith (IsInvalid tag) (.error (invalid tag message) : Except Failure α) :=
  .error ⟨message, rfl⟩

theorem IsInvalid.isRefusal {tag : String} {e : Failure} (h : IsInvalid tag e) :
    e.isRefusal = true := by
  obtain ⟨message, rfl⟩ := h
  rfl

theorem failsWith_optionalString (tag name : String) (configdata : Json.Members) :
    FailsWith (IsInvalid tag) (optionalString tag name configdata) := by
  unfold optionalString
  split
  · exact .ok _
  · exact .ok _
  · exact .ok _
  · exact failsWith_invalid _ _

theorem failsWith_optionalNatural (tag name : String) (configdata : Json.Members) :
    FailsWith (IsInvalid tag) (optionalNatural tag name configdata) := by
  unfold optionalNatural
  split
  · exact .ok _
  · exact .ok _
  · split
    · exact .ok _
    · exact failsWith_invalid _ _

end FieldType

namespace Rule

open FieldType

theorem failsWith_within (name : String) (bound : Nat) (n : Option Nat) :
    FailsWith (IsInvalid "text") (within name bound n) := by
  unfold within
  split
  · split
    · exact .ok _
    · exact failsWith_invalid _ _
  · exact .ok _

theorem failsWith_text (configdata : Json.Members) :
    FailsWith (IsInvalid "text") (text configdata) := by
  refine .bind (failsWith_optionalNatural _ _ _) fun displaysize => ?_
  refine .bind (failsWith_optionalNatural _ _ _) fun maxlength => ?_
  refine .bind (failsWith_within _ _ _) fun _ => .bind (failsWith_within _ _ _) fun _ => ?_
  refine .bind (failsWith_optionalString _ _ _) fun value => ?_
  split
  · split
    · exact failsWith_invalid _ _
    · exact .ok _
  · exact .ok _

theorem failsWith_textarea (configdata : Json.Members) :
    FailsWith (IsInvalid "textarea") (textarea configdata) :=
  .bind (failsWith_optionalString _ _ _) fun _ => .ok _

theorem failsWith_select (configdata : Json.Members) :
    FailsWith (IsInvalid "select") (select configdata) := by
  refine .bind (failsWith_optionalString _ _ _) fun _ => ?_
  dsimp only
  split
  · exact failsWith_invalid _ _
  · refine .bind (failsWith_optionalString _ _ _) fun value => ?_
    split
    · split
      · exact .ok _
      · exact failsWith_invalid _ _
    · exact .ok _

theorem failsWith_checkbox (configdata : Json.Members) :
    FailsWith (IsInvalid "checkbox") (checkbox configdata) := by
  unfold checkbox
  split
  · exact .ok _
  · exact .ok _
  · exact .ok _
  · exact .ok _
  · exact .ok _
  · exact failsWith_invalid _ _

theorem failsWith_dateBound (name : String) (configdata : Json.Members) :
    FailsWith (IsInvalid "date") (dateBound name configdata) := by
  unfold dateBound
  split
  · exact .ok _
  · exact .ok _
  · split
    · exact failsWith_invalid _ _
    · split
      · exact .ok _
      · exact failsWith_invalid _ _

theorem failsWith_date (configdata : Json.Members) :
    FailsWith (IsInvalid "date") (date configdata) := by
  refine .bind (failsWith_dateBound _ _) fun min => .bind (failsWith_dateBound _ _) fun max => ?_
  split
  · split
    · exact failsWith_invalid _ _
    · exact .ok _
  · exact .ok _

end Rule

/-- A built-in type follows a rule that fails in the name of the type. -/
theorem FieldType.exists_rule_of_mem_builtin {σ : Type} {type : FieldType σ}
    (h : type ∈ FieldType.builtin σ) :
    ∃ rule : Rule, (∀ configdata, FailsWith (IsInvalid type.tag) (rule configdata)) ∧
      type = .ofRule type.tag rule := by
  simp only [FieldType.builtin, List.mem_cons, List.not_mem_nil, or_false] at h
  rcases h with rfl | rfl | rfl | rfl | rfl
  · exact ⟨Rule.checkbox, Rule.failsWith_checkbox, rfl⟩
  · exact ⟨Rule.date, Rule.failsWith_date, rfl⟩
  · exact ⟨Rule.select, Rule.failsWith_select, rfl⟩
  · exact ⟨Rule.text, Rule.failsWith_text, rfl⟩
  · exact ⟨Rule.textarea, Rule.failsWith_textarea, rfl⟩

namespace Check

variable {σ α β : Type}

/-- A check that fails with refusals only, whatever the types remember. -/
def Refuses (check : Check σ α) : Prop :=
  ∀ outlook state, FieldCatalog.Refuses (check outlook state).1

theorem refuses_bind {check : Check σ α} {f : α → Check σ β} (h : check.Refuses)
    (hf : ∀ a, (f a).Refuses) : Refuses (check >>= f) := by
  -- The first check ends the sequence with a refusal, or the rest of the sequence decides.
  intro outlook state
  show FieldCatalog.Refuses
    (ExceptT.bindCont (fun a => f a outlook) (check outlook state).1 (check outlook state).2).1
  have hcheck := h outlook state
  generalize check outlook state = run at hcheck ⊢
  obtain ⟨_ | a, state'⟩ := run
  · exact .error (hcheck _ rfl)
  · exact hf a outlook state'

theorem refuses_answer_bind {result : Except Failure α} {f : α → Check σ β}
    (h : FieldCatalog.Refuses result) (hf : ∀ a, result = .ok a → (f a).Refuses) :
    Refuses (FieldType.answer result >>= f) := by
  cases result with
  | error e => exact fun _ _ => .error (h e rfl)
  | ok a => exact hf a rfl

end Check

/-- Preparing a configuration for a built-in type fails with refusals only. -/
theorem Registry.refuses_prepare_builtin {σ : Type} (tag : String) (configdata : Option Json) :
    ((Registry.builtin (σ := σ)).prepare tag configdata).Refuses := by
  refine Check.refuses_answer_bind ?_ fun type htype => ?_
  · -- An unknown type is refused.
    unfold resolve
    split
    · exact .ok _
    · exact .error rfl
  · -- A type that is found is one of the built-in ones and follows a rule.
    unfold resolve at htype
    split at htype
    · next hfind =>
      cases htype
      obtain ⟨rule, hrule, heq⟩ :=
        FieldType.exists_rule_of_mem_builtin (List.mem_of_find?_eq_some hfind)
      split
      · next members _ =>
        rw [heq]
        exact Check.refuses_bind (fun _ _ e he => (hrule members e he).isRefusal)
          fun _ _ _ => .ok _
      · exact fun _ _ => .error rfl
    · cases htype

end FieldCatalog
