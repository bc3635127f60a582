import FieldCatalog.Proofs.Text.Trimmed
import Mathlib.Algebra.Group.Nat.Defs
import Mathlib.Data.List.Nodup
import Mathlib.Logic.Function.Iterate

/-!
# The names that are chosen

A new category gets the name it is given, without the blanks around it, unless nothing is left of it
then. The names that are tried otherwise are all different. Among one more of them than there are
taken names one is therefore free, and the search ends with the first that is.

The search needs no count of its tries for that. Left to itself, with a number that is counted up in a
word of 32 bits, it ends all the same, before the number can leave the word.

## Main definitions

* `Naming.Search`, `Naming.Search.turn`: a search without a limit, and one turn of it

## Main results

* `Naming.candidate_injective`: the names that are tried are different
* `Naming.firstFree_eq_candidate`: where a search for a free name ends
* `Naming.defaultName_eq_candidate`: the default name is the first that is free
* `Naming.chosen_of_not_blank`, `Naming.chosen_of_blank`: which name is chosen
* `Naming.Search.iterate_turn_start`: the turns that find their name taken
* `Naming.search_ends`: a search without a limit ends with the default name
-/

namespace FieldCatalog.Naming

theorem candidate_injective : Function.Injective candidate := by
  have hnumbered (n : Nat) : "Other fields " ++ toString n ≠ "Other fields" := by
    intro h
    have hlength := congrArg String.length h
    rw [String.length_append] at hlength
    have hprefix : "Other fields ".length = 13 ∧ "Other fields".length = 12 := by decide
    omega
  intro i j h
  unfold candidate at h
  split at h <;> split at h
  · next hi hj => exact hi.trans hj.symm
  · exact absurd h.symm (hnumbered j)
  · exact absurd h (hnumbered i)
  · -- The digits of a number determine it.
    have hrepr : i.repr = j.repr := (String.append_right_inj _).mp h
    rw [← Nat.ofDigitChars_ten_toDigits (n := i), ← Nat.toList_repr, hrepr, Nat.toList_repr,
      Nat.ofDigitChars_ten_toDigits]

/-- A search ends with a candidate. Those before it are taken, and so is the last one only if no try
is left. -/
theorem firstFree_eq_candidate (taken : List String) (number tries : Nat) :
    ∃ last, firstFree taken number tries = candidate last ∧
      (∀ n, number ≤ n → n < last → candidate n ∈ taken) ∧
      (candidate last ∈ taken → last = number + tries) := by
  -- Induction on the tries, for every number that the search may have come to.
  induction tries generalizing number with
  | zero => exact ⟨number, rfl, fun n hle hlt => absurd hle (Nat.not_le.mpr hlt), fun _ => rfl⟩
  | succ tries ih =>
    unfold firstFree
    split
    · next htaken =>
      obtain ⟨last, hlast, hbefore, hfull⟩ := ih (number + 1)
      refine ⟨last, hlast, fun n hle hlt => ?_, fun h => (hfull h).trans (by omega)⟩
      obtain rfl | hlt' := Nat.eq_or_lt_of_le hle
      · exact List.contains_iff_mem.mp htaken
      · exact hbefore n hlt' hlt
    · next hfree =>
      exact ⟨number, rfl, fun n hle hlt => absurd hle (Nat.not_le.mpr hlt),
        fun h => absurd (List.contains_iff_mem.mpr h) hfree⟩

/-- There are no more candidates among the taken names than there are taken names. -/
theorem le_length_of_candidates_mem {taken : List String} {count : Nat}
    (h : ∀ n < count, candidate n ∈ taken) : count ≤ taken.length := by
  have hall : (List.range count).map candidate ⊆ taken := by
    intro name hname
    obtain ⟨n, hn, rfl⟩ := List.mem_map.mp hname
    exact h n (List.mem_range.mp hn)
  have hcount := (List.nodup_range.map candidate_injective).length_le_of_subset hall
  rwa [List.length_map, List.length_range] at hcount

/-- The default name is the first candidate that is free. -/
theorem defaultName_eq_candidate (taken : List String) :
    ∃ last, defaultName taken = candidate last ∧ candidate last ∉ taken ∧
      ∀ n < last, candidate n ∈ taken := by
  obtain ⟨last, hlast, hbefore, hfull⟩ := firstFree_eq_candidate taken 0 taken.length
  refine ⟨last, hlast, fun htaken => ?_, fun n => hbefore n (Nat.zero_le n)⟩
  -- A last candidate that is taken comes after as many others as there are taken names.
  have hall : ∀ n < last + 1, candidate n ∈ taken := by
    intro n hn
    obtain rfl | hlt := Nat.eq_or_lt_of_le (Nat.le_of_lt_succ hn)
    · exact htaken
    · exact hbefore n (Nat.zero_le n) hlt
  have hcount := le_length_of_candidates_mem hall
  have := hfull htaken
  omega

theorem defaultName_not_mem (taken : List String) : defaultName taken ∉ taken := by
  obtain ⟨last, hlast, hfree, -⟩ := defaultName_eq_candidate taken
  rwa [hlast]

/-- A name that is not blank is chosen without the blanks around it. -/
theorem chosen_of_not_blank (taken : List String) {given : String}
    (h : Text.allBlank given = false) : chosen taken (some given) = Text.trim given := by
  have hne : Text.trim given ≠ "" := fun he => by
    rw [Text.trim_eq_empty_iff.mp he] at h
    cases h
  exact if_neg (by simpa using hne)

/-- Without a name, or with a blank one, the default name is chosen. -/
theorem chosen_of_blank (taken : List String) {name : Option String}
    (h : ∀ given ∈ name, Text.allBlank given = true) : chosen taken name = defaultName taken := by
  cases name with
  | none => rfl
  | some given =>
    have he : Text.trim given = "" := Text.trim_eq_empty_iff.mpr (h given rfl)
    exact if_pos (by rw [he]; rfl)

/-! ## A search without a limit -/

/-- How far a search for a free name has come: it tries a name, with the number that it has counted up
to in a word of 32 bits; it has found a name; or the number has left the word. -/
inductive Search
  | trying (name : String) (number : Int32)
  | found (name : String)
  | overflowed
deriving DecidableEq, Repr

namespace Search

/-- A search begins with the name that has no number. -/
def start : Search := .trying "Other fields" 0

/-- One turn of a search. A name that is taken is followed by the next one with a number, and the first
name that is free is found. -/
def turn (taken : List String) : Search → Search
  | .trying name number =>
    if taken.contains name then
      if number = Int32.maxValue then .overflowed
      else .trying ("Other fields " ++ toString (number + 1)) (number + 1)
    else .found name
  | .found name => .found name
  | .overflowed => .overflowed

variable {taken : List String}

/-- A turn that finds its name free ends the search. -/
theorem turn_of_free {name : String} {number : Int32} (h : name ∉ taken) :
    turn taken (.trying name number) = .found name :=
  if_neg fun hmem => h (List.contains_iff_mem.mp hmem)

/-- A turn that finds its candidate taken goes on to the next one, while the number has room. -/
theorem turn_of_taken {n : Nat} {number : Int32} (hnumber : number.toInt = n)
    (hroom : n + 1 < 2 ^ 31) (h : candidate n ∈ taken) :
    ∃ next : Int32, next.toInt = (n + 1 : Nat) ∧
      turn taken (.trying (candidate n) number) = .trying (candidate (n + 1)) next := by
  have hne : number ≠ Int32.maxValue := by
    rintro rfl
    rw [Int32.toInt_maxValue] at hnumber
    omega
  have hofNat : number = Int32.ofNat n := by
    apply Int32.toInt_inj.mp
    rw [hnumber, Int32.toInt_ofNat_of_lt (by omega)]
  have hnext : (number + 1).toInt = (n + 1 : Nat) := by
    rw [← Int32.toInt_ofNat_of_lt hroom, Int32.ofNat_add, hofNat]
    rfl
  refine ⟨number + 1, hnext, ?_⟩
  have htext : toString (number + 1) = toString (n + 1) := congrArg toString hnext
  rw [turn, if_pos (List.contains_iff_mem.mpr h), if_neg hne, htext, candidate,
    if_neg (Nat.succ_ne_zero n)]

/-- As long as the candidates are taken, every turn leads to the next one, and the number counts the
turns. -/
theorem iterate_turn_start {turns : Nat} (hroom : turns < 2 ^ 31)
    (h : ∀ n < turns, candidate n ∈ taken) :
    ∃ number : Int32, number.toInt = turns ∧
      (turn taken)^[turns] start = .trying (candidate turns) number := by
  -- Induction on the turns: one more turn finds the candidate taken that the others have led to.
  induction turns with
  | zero => exact ⟨0, rfl, rfl⟩
  | succ turns ih =>
    obtain ⟨number, hnumber, hturns⟩ :=
      ih (Nat.lt_of_succ_lt hroom) fun n hn => h n (Nat.lt_succ_of_lt hn)
    obtain ⟨next, hnext, hturn⟩ := turn_of_taken hnumber hroom (h turns (Nat.lt_succ_self turns))
    exact ⟨next, hnext, by rw [Function.iterate_succ_apply', hturns, hturn]⟩

end Search

/-- A search without a limit ends with the default name, which is the first candidate that is free. It
takes one turn more than candidates are taken, of which there are no more than taken names, so that the
number does not leave its word. -/
theorem search_ends (taken : List String) (h : taken.length < 2 ^ 31) :
    ∃ last ≤ taken.length,
      (∀ turns ≤ last, ∃ number : Int32, number.toInt = turns ∧
        (Search.turn taken)^[turns] .start = .trying (candidate turns) number) ∧
      (Search.turn taken)^[last + 1] .start = .found (defaultName taken) ∧
      defaultName taken = candidate last ∧ candidate last ∉ taken ∧
      ∀ n < last, candidate n ∈ taken := by
  obtain ⟨last, hlast, hfree, hbefore⟩ := defaultName_eq_candidate taken
  have hle := le_length_of_candidates_mem hbefore
  have hturns : ∀ turns ≤ last, ∃ number : Int32, number.toInt = turns ∧
      (Search.turn taken)^[turns] .start = .trying (candidate turns) number := fun turns hturns =>
    Search.iterate_turn_start (by omega) fun n hn => hbefore n (by omega)
  obtain ⟨number, -, htrying⟩ := hturns last (Nat.le_refl last)
  refine ⟨last, hle, hturns, ?_, hlast, hfree, hbefore⟩
  rw [Function.iterate_succ_apply', htrying, Search.turn_of_free hfree, hlast]

theorem search_ends_crowded :
    let taken := ["Other fields 2", "Other fields", "Other fields 01", "Other fields", "other fields 1"]
    taken.length < 2 ^ 31 ∧ defaultName taken = "Other fields 1" ∧
      ∃ last ≤ 5, (Search.turn taken)^[last + 1] .start = .found "Other fields 1" ∧
        candidate last = "Other fields 1" := by
  intro taken
  have hname : defaultName taken = "Other fields 1" := by decide
  obtain ⟨last, hle, -, hfound, hlast, -⟩ := search_ends taken (by decide)
  exact ⟨by decide, hname, last, hle, hname ▸ hfound, hlast.symm.trans hname⟩

end FieldCatalog.Naming
