import FieldCatalog.Failure

/-!
# Results in sequence

Most operations are results in sequence: the first that fails is the failure of the whole.

## Main definitions

* `FailsWith`: a result that fails in a certain way only

## Main results

* `bind_eq_ok_iff`: a sequence of two results succeeds when both do
* `FailsWith.bind`: a sequence fails in the ways of its parts
-/

namespace FieldCatalog

/-- A sequence of two results succeeds when the first one does and the second one with its answer. -/
theorem bind_eq_ok_iff {ε α β : Type} {result : Except ε α} {next : α → Except ε β} {b : β} :
    (result >>= next) = .ok b ↔ ∃ a, result = .ok a ∧ next a = .ok b := by
  cases result with
  | error e => exact iff_of_false (fun h => nomatch h) fun ⟨_, h, _⟩ => nomatch h
  | ok a => exact ⟨fun h => ⟨a, rfl, h⟩, fun ⟨_, ha, h⟩ => Except.ok.inj ha ▸ h⟩

/-- A result that fails in a certain way only. -/
def FailsWith {α : Type} (P : Failure → Prop) (result : Except Failure α) : Prop :=
  ∀ e, result = .error e → P e

namespace FailsWith

variable {α β : Type} {P : Failure → Prop}

theorem ok (a : α) : FailsWith P (.ok a) := fun _ h => by cases h

theorem error {e : Failure} (he : P e) : FailsWith P (.error e : Except Failure α) := by
  intro e' h
  cases h
  exact he

theorem bind {result : Except Failure α} {f : α → Except Failure β} (h : FailsWith P result)
    (hf : ∀ a, FailsWith P (f a)) : FailsWith P (result >>= f) := by
  cases result with
  | error e => exact .error (h e rfl)
  | ok a => exact hf a

end FailsWith

end FieldCatalog
