import FieldCatalog.Proofs.Json.Roundtrip

/-!
# Containers that are taken as they are read

A text spells the value that it holds, with the members of each object in the order of the text and as
often as they stand there. Many texts spell one value: they differ in blanks and escapes and in the
digits of numbers.

Who takes the items of a container one by one as they are read need not look at the text: when one item
is taken as its value tells, so is the whole container, from left to right, and reading ends where it
ends for the value.

## Main definitions

* `Json.IsScalar`: a value without parts
* `Json.Echoes`: a step that takes an item as the value of the item tells

## Main results

* `Json.sequence_of_echoes`: a container is taken as its items tell
* `Json.value_cases`: a value is read as an array, as an object or as a scalar
* `Json.spells_members`: members are spelled by what is written for them, in any order
-/

namespace FieldCatalog.Json

/-! ## Containers -/

section Containers

variable {σ α : Type} {close : Char} {collect : List α → Reader (List α)} {step : σ → Reader σ}
  {take : σ → α → Except Fault σ} {xs ys : List α} {cs rest : List Char} {budget : Nat}

/-- Where `collect` reads one more item, `step` reads just as far and does with its state what `take`
does with the item. -/
def Echoes (collect : List α → Reader (List α)) (step : σ → Reader σ) (take : σ → α → Except Fault σ) :
    Prop :=
  ∀ xs cs ys rest, collect xs cs = .ok (ys, rest) →
    ∃ x, ys = x :: xs ∧ ∀ s, step s cs = (take s x).map fun s => (s, rest)

/-- An item is taken first and then those behind it. -/
theorem bind_of_echo {next : σ × List Char → Except Fault (σ × List Char)} {s : σ} {x : α}
    {zs : List α} {tail : List Char} (hstep : step s cs = (take s x).map fun s => (s, tail))
    (hrest : ∀ s, next (s, tail) = (zs.foldlM take s).map fun s => (s, rest)) :
    (step s cs >>= next) = ((x :: zs).foldlM take s).map fun s => (s, rest) := by
  rw [hstep, List.foldlM_cons]
  cases take s x with
  | error fault => rfl
  | ok s' => exact hrest s'

theorem sequenceRest_of_echoes (h : Echoes collect step take)
    (hcollect : sequenceRest close collect budget xs cs = .ok (ys, rest)) :
    ∃ zs : List α, ys = zs.reverse ++ xs ∧
      ∀ s, sequenceRest close step budget s cs = (zs.foldlM take s).map fun s => (s, rest) := by
  -- Induction on the budget, of which both readers use up one for each item.
  induction budget generalizing xs cs with
  | zero => cases hcollect
  | succ budget ih =>
    rw [sequenceRest] at hcollect
    simp only [sequenceRest]
    cases hfront : skipSpace cs with
    | nil =>
      rw [hfront] at hcollect
      cases hcollect
    | cons c tail =>
      simp only [hfront] at hcollect ⊢
      by_cases hclose : c = close
      · rw [if_pos hclose] at hcollect
        cases hcollect
        exact ⟨[], rfl, fun s => if_pos hclose⟩
      rw [if_neg hclose] at hcollect
      by_cases hcomma : c = ','
      · rw [if_pos hcomma] at hcollect
        obtain ⟨⟨xs', tail'⟩, hitem, hothers⟩ := bind_eq_ok_iff.mp hcollect
        obtain ⟨x, rfl, hstep⟩ := h _ _ _ _ hitem
        obtain ⟨zs, rfl, hrest⟩ := ih hothers
        refine ⟨x :: zs, by rw [List.reverse_cons, List.append_assoc]; rfl, fun s => ?_⟩
        rw [if_neg hclose, if_pos hcomma]
        exact bind_of_echo (hstep s) hrest
      · rw [if_neg hcomma] at hcollect
        cases hcollect

/-- A container is taken as its items tell, one after another, wherever they can all be read. -/
theorem sequence_of_echoes (h : Echoes collect step take)
    (hcollect : sequence close collect xs cs = .ok (ys, rest)) :
    ∃ zs : List α, ys = zs.reverse ++ xs ∧
      ∀ s, sequence close step s cs = (zs.foldlM take s).map fun s => (s, rest) := by
  rw [sequence] at hcollect
  simp only [sequence]
  cases hfront : skipSpace cs with
  | nil =>
    rw [hfront] at hcollect
    cases hcollect
  | cons c tail =>
    simp only [hfront] at hcollect ⊢
    by_cases hclose : c = close
    · rw [if_pos hclose] at hcollect
      cases hcollect
      exact ⟨[], rfl, fun s => if_pos hclose⟩
    rw [if_neg hclose] at hcollect
    obtain ⟨⟨xs', tail'⟩, hitem, hothers⟩ := bind_eq_ok_iff.mp hcollect
    obtain ⟨x, rfl, hstep⟩ := h _ _ _ _ hitem
    obtain ⟨zs, rfl, hrest⟩ := sequenceRest_of_echoes h hothers
    refine ⟨x :: zs, by rw [List.reverse_cons, List.append_assoc]; rfl, fun s => ?_⟩
    rw [if_neg hclose]
    exact bind_of_echo (hstep s) hrest

end Containers

/-! ## Values -/

variable {n : Nat} {cs rest : List Char} {json : Json} {items : List Json} {members : Members}

/-- A value without parts. -/
def IsScalar : Json → Prop
  | .array _ | .object _ => False
  | _ => True

theorem Literal.isScalar_of_value? {l : Literal} (h : l.value? = some json) : json.IsScalar := by
  simp only [Literal.value?] at h
  split at h
  · cases h
    trivial
  · obtain ⟨x, -, rfl⟩ := Option.map_eq_some_iff.mp h
    trivial

theorem isScalar_of_number {negative : Bool} (h : number negative cs = .ok (json, rest)) :
    json.IsScalar := by
  obtain ⟨⟨whole, cs⟩, -, h⟩ := bind_eq_ok_iff.mp h
  obtain ⟨⟨fraction, cs⟩, -, h⟩ := bind_eq_ok_iff.mp h
  obtain ⟨⟨exponent, cs⟩, -, h⟩ := bind_eq_ok_iff.mp h
  cases hvalue : Literal.value? { negative, whole, fraction, exponent } with
  | none =>
    simp only [hvalue] at h
    cases h
  | some json =>
    simp only [hvalue] at h
    cases h
    exact Literal.isScalar_of_value? hvalue

/-- What is read as a scalar is one. -/
theorem isScalar_of_scalar (h : scalar cs = .ok (json, rest)) : json.IsScalar := by
  unfold scalar at h
  split at h
  case h_1 => cases h
  case h_6 => exact isScalar_of_number h
  case h_7 =>
    split at h
    · exact isScalar_of_number h
    · cases h
  -- The key words and the strings are answered as they are.
  all_goals
    obtain ⟨_, -, h⟩ := bind_eq_ok_iff.mp h
    cases h
    trivial

/-- No scalar begins with a bracket. -/
theorem front_of_scalar (h : scalar cs = .ok (json, rest)) (tail : List Char) :
    cs ≠ '[' :: tail ∧ cs ≠ '\x7b' :: tail := by
  constructor <;> (rintro rfl; cases h)

/-- A value is read as an array, as an object or as a scalar, by its first character. -/
theorem value_cases (h : value n cs = .ok (json, rest)) :
    (∃ m items tail, n = m + 1 ∧ json = .array items ∧ skipSpace cs = '[' :: tail ∧
      sequence ']' (arrayStep (value m)) [] tail = .ok (items.reverse, rest)) ∨
    (∃ m members tail, n = m + 1 ∧ json = .object members ∧ skipSpace cs = '\x7b' :: tail ∧
      sequence '\x7d' (objectStep (value m)) [] tail = .ok (members.reverse, rest)) ∨
    scalar (skipSpace cs) = .ok (json, rest) := by
  unfold value at h
  split at h
  · next tail m hfront =>
    obtain ⟨⟨items, rest⟩, hitems, h⟩ := bind_eq_ok_iff.mp h
    cases h
    exact .inl ⟨m, items.reverse, tail, rfl, rfl, hfront, by rw [List.reverse_reverse, hitems]⟩
  · next tail m hfront =>
    obtain ⟨⟨members, rest⟩, hmembers, h⟩ := bind_eq_ok_iff.mp h
    cases h
    exact .inr (.inl ⟨m, members.reverse, tail, rfl, rfl, hfront,
      by rw [List.reverse_reverse, hmembers]⟩)
  · exact .inr (.inr h)

/-! ## Written members -/

/-- What holds of the values of some members holds of the members together. -/
theorem members_of_forall (h : ∀ member ∈ members, member.2.Canonical ∧ member.2.Plain ∧
    member.2.depth ≤ n) :
    CanonicalMembers members ∧ PlainMembers members ∧ depthOfMembers members ≤ n := by
  induction members with
  | nil => exact ⟨trivial, trivial, Nat.zero_le n⟩
  | cons member rest ih =>
    obtain ⟨⟨hcanonical, hplain, hdepth⟩, hrest⟩ := List.forall_mem_cons.mp h
    obtain ⟨hcanonical', hplain', hdepth'⟩ := ih hrest
    exact ⟨⟨hcanonical, hcanonical'⟩, ⟨hplain, hplain'⟩, Nat.max_le.mpr ⟨hdepth, hdepth'⟩⟩

/-- Members are spelled by what is written for them, in any order and with any names, when their values
can be read back. -/
theorem spells_members (h : ∀ member ∈ members, member.2.Canonical ∧ member.2.Plain ∧
    member.2.depth ≤ nestingLimit - 1) :
    Spells (object members).render (.object members) := by
  obtain ⟨hcanonical, hplain, hdepth⟩ := members_of_forall h
  have hreads := reads_members members (nestingLimit - 1) hcanonical hplain hdepth []
  have hsequence := sequence_separated (.inr rfl) [] hreads fun member _ => opens_memberText member
  refine ⟨[], ?_, rfl⟩
  rw [render, String.toList_ofList, chars, memberChars_eq, nestingLimit, value_object]
  refine (congrArg _ hsequence).trans ?_
  simp only [Except.map, List.append_nil, List.reverse_reverse]

end FieldCatalog.Json
