import FieldCatalog.Catalog.Naming
import Mathlib.Data.List.TakeWhile

/-!
# Trimmed texts

A name is stored without the blanks around it. The names that are chosen for categories without one
need no trimming: they begin with a letter and end with a letter or a digit.

## Main definitions

* `Text.IsTrimmed`: a text that is not empty and has no blank at its two ends

## Main results

* `Text.isTrimmed_trim`: what trimming leaves of a text is trimmed, if it leaves anything
* `Text.trim_eq_empty_iff`: trimming leaves nothing of blanks only
* `Naming.isTrimmed_chosen`: the name of a new category is trimmed
-/

namespace FieldCatalog

namespace Text

/-- A text that is not empty and neither begins nor ends with a blank. -/
def IsTrimmed (s : String) : Prop :=
  s ≠ "" ∧ (∀ c ∈ s.toList.head?, isBlank c = false) ∧ ∀ c ∈ s.toList.getLast?, isBlank c = false

-- The instances are named because all characters can be tried as well, which takes too long.
instance (s : String) : Decidable (IsTrimmed s) :=
  haveI hhead := Option.decidableForallMem (p := fun c => isBlank c = false) s.toList.head?
  haveI hlast := Option.decidableForallMem (p := fun c => isBlank c = false) s.toList.getLast?
  @instDecidableAnd _ _ inferInstance (@instDecidableAnd _ _ hhead hlast)

/-- What is left of a list after leading blanks have been dropped does not begin with one. -/
theorem isBlank_of_mem_head?_dropWhile {cs : List Char} {c : Char}
    (h : c ∈ (cs.dropWhile isBlank).head?) : isBlank c = false := by
  have := List.head?_dropWhile_not isBlank cs
  rw [Option.mem_def.mp h] at this
  simpa using this

theorem isBlank_of_mem_head?_trimChars {cs : List Char} {c : Char}
    (h : c ∈ (trimChars cs).head?) : isBlank c = false := by
  -- Dropping blanks at the end leaves a prefix, whose first character is the first of the whole.
  have hsuffix := List.dropWhile_suffix (l := (cs.dropWhile isBlank).reverse) isBlank
  obtain ⟨tail, htail⟩ := List.reverse_prefix.mpr hsuffix
  rw [List.reverse_reverse] at htail
  have hhead : (cs.dropWhile isBlank).head? = some c := by
    rw [← htail, List.head?_append, ← trimChars, Option.mem_def.mp h, Option.some_or]
  exact isBlank_of_mem_head?_dropWhile hhead

theorem isBlank_of_mem_getLast?_trimChars {cs : List Char} {c : Char}
    (h : c ∈ (trimChars cs).getLast?) : isBlank c = false := by
  rw [trimChars, List.getLast?_reverse] at h
  exact isBlank_of_mem_head?_dropWhile h

/-- What trimming leaves of a text is trimmed, if it leaves anything. -/
theorem isTrimmed_trim {s : String} (h : trim s ≠ "") : IsTrimmed (trim s) := by
  refine ⟨h, ?_, ?_⟩ <;> rw [toList_trim]
  · exact fun _ => isBlank_of_mem_head?_trimChars
  · exact fun _ => isBlank_of_mem_getLast?_trimChars

/-- Trimming leaves nothing of blanks, and something of anything else. -/
theorem trim_eq_empty_iff {s : String} : trim s = "" ↔ allBlank s = true := by
  rw [← String.toList_eq_nil_iff, toList_trim, trimChars, List.reverse_eq_nil_iff,
    List.dropWhile_eq_nil_iff, allBlank, List.all_eq_true]
  constructor
  · -- What is left without the leading blanks is blank, so it can only be empty.
    intro h c hc
    by_contra hne
    have hleft : s.toList.dropWhile isBlank ≠ [] := fun hnil =>
      hne (List.dropWhile_eq_nil_iff.mp hnil c hc)
    obtain ⟨first, rest, hcons⟩ := List.exists_cons_of_ne_nil hleft
    have hhead : first ∈ (s.toList.dropWhile isBlank).head? := by
      rw [hcons]
      rfl
    have hfirst := isBlank_of_mem_head?_dropWhile hhead
    have hblank := h first (List.mem_reverse.mpr (by rw [hcons]; exact List.mem_cons_self))
    rw [hfirst] at hblank
    cases hblank
  · exact fun h c hc => h c ((List.dropWhile_sublist _).subset (List.mem_reverse.mp hc))

end Text

namespace Naming

open Text

theorem isBlank_of_isDigit {c : Char} (h : c.isDigit = true) : isBlank c = false := by
  have hrange : 48 ≤ c.toNat ∧ c.toNat ≤ 57 := by
    simpa [Char.isDigit, UInt32.le_iff_toNat_le] using h
  simp only [isBlank, blankRanges, List.any_eq_false, List.mem_cons, List.not_mem_nil, or_false,
    Bool.and_eq_true, decide_eq_true_eq, not_and, forall_eq_or_imp, forall_eq]
  omega

/-- The names that are tried for a new category are trimmed. -/
theorem isTrimmed_candidate (number : Nat) : IsTrimmed (candidate number) := by
  unfold candidate
  split
  · decide
  · -- The text begins with a capital letter, and its last character is the last digit of the number.
    have hlist : ("Other fields " ++ toString number).toList =
        "Other fields ".toList ++ Nat.toDigits 10 number := by
      rw [String.toList_append, Nat.toString_eq_repr, Nat.toList_repr]
    refine ⟨fun h => ?_, ?_, ?_⟩
    · rw [h] at hlist
      simp at hlist
    · rw [hlist]
      intro c hc
      obtain rfl : 'O' = c := Option.some.inj hc
      decide
    · rw [hlist, List.getLast?_append]
      have hne : Nat.toDigits 10 number ≠ [] := Nat.toDigits_ne_nil
      have hlast := List.getLast?_eq_some_getLast hne
      intro c hc
      rw [hlast] at hc
      obtain rfl := Option.some.inj hc
      exact isBlank_of_isDigit
        (Nat.isDigit_of_mem_toDigits (by decide) (by decide) (List.mem_of_getLast? hlast))

theorem isTrimmed_firstFree (taken : List String) (number tries : Nat) :
    IsTrimmed (firstFree taken number tries) := by
  -- Whichever candidate the search ends with, it is one of the candidates.
  induction tries generalizing number with
  | zero => exact isTrimmed_candidate number
  | succ tries ih =>
    unfold firstFree
    split
    · exact ih (number + 1)
    · exact isTrimmed_candidate number

/-- The name of a new category is trimmed. -/
theorem isTrimmed_chosen (taken : List String) (name : Option String) :
    IsTrimmed (chosen taken name) := by
  unfold chosen
  split
  · next trimmed h =>
    -- A name of blanks leaves nothing, and a default name takes its place.
    obtain ⟨given, -, rfl⟩ := Option.map_eq_some_iff.mp h
    split
    · exact isTrimmed_firstFree taken 0 taken.length
    · next hne => exact isTrimmed_trim fun e => hne (by rw [e]; rfl)
  · exact isTrimmed_firstFree taken 0 taken.length

end Naming

end FieldCatalog
