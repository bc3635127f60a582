import Mathlib.Computability.Language
import Mathlib.Data.String.Basic
import FieldCatalog.FieldType.Registry

/-!
# Identifiers

Tags and short names are made of lower-case letters, digits and underscores. What is asked of a tag
is written as a language here, in the way of a regular expression. The letters of an identifier take
one byte each, so that the order of identifiers is that of their bytes.

## Main definitions

* `Text.between`: the words of one letter out of a range
* `Text.tags`: the language of tags
* `Text.bytes`: the bytes of a text

## Main results

* `Text.isTag_iff`: the check of a tag admits the words of that language
* `Text.bytes_lt_bytes`: the bytes of ASCII texts are in the order of the texts
-/

open scoped Computability

namespace FieldCatalog

namespace Text

theorem isLower_iff {c : Char} : c.isLower = true ↔ 'a' ≤ c ∧ c ≤ 'z' :=
  (Bool.and_eq_true _ _).to_iff.trans (and_congr decide_eq_true_iff decide_eq_true_iff)

theorem isDigit_iff {c : Char} : c.isDigit = true ↔ '0' ≤ c ∧ c ≤ '9' :=
  (Bool.and_eq_true _ _).to_iff.trans (and_congr decide_eq_true_iff decide_eq_true_iff)

/-! ## The language of tags -/

/-- The words of one letter that lies between two others. -/
def between (first last : Char) : Language Char :=
  {word | ∃ c, first ≤ c ∧ c ≤ last ∧ word = [c]}

/-- A lower-case letter, and then any number of lower-case letters, digits and underscores. -/
def tags : Language Char :=
  between 'a' 'z' * (between 'a' 'z' + between '0' '9' + {['_']})∗

/-- Words of one letter, repeated, are the words of such letters. -/
theorem mem_kstar_iff_forall {l : Language Char} {p : Char → Prop}
    (hl : ∀ word, word ∈ l ↔ ∃ c, p c ∧ word = [c]) {cs : List Char} :
    cs ∈ l∗ ↔ ∀ c ∈ cs, p c := by
  rw [Language.mem_kstar]
  constructor
  · rintro ⟨words, rfl, hwords⟩ c hc
    obtain ⟨word, hword, hc⟩ := List.mem_flatten.mp hc
    obtain ⟨d, hd, rfl⟩ := (hl word).mp (hwords word hword)
    exact List.mem_singleton.mp hc ▸ hd
  · intro h
    refine ⟨cs.map fun c => [c], by simp [← List.flatMap_def], fun word hword => ?_⟩
    obtain ⟨c, hc, rfl⟩ := List.mem_map.mp hword
    exact (hl _).mpr ⟨c, h c hc, rfl⟩

theorem mem_letters_iff (word : List Char) :
    word ∈ between 'a' 'z' + between '0' '9' + {['_']} ↔
      ∃ c : Char, (c.isLower || c.isDigit || c == '_') = true ∧ word = [c] := by
  simp only [Language.mem_add, Bool.or_eq_true, beq_iff_eq, isLower_iff, isDigit_iff, or_and_right,
    exists_or, and_assoc, exists_eq_left]
  rfl

/-- The check of a tag admits the words of the language. -/
theorem isTag_iff {cs : List Char} : isTag cs = true ↔ cs ∈ tags := by
  rw [tags, Language.mem_mul]
  simp only [mem_kstar_iff_forall mem_letters_iff]
  constructor
  · intro h
    cases cs with
    | nil => cases h
    | cons c cs =>
      obtain ⟨hfirst, hrest⟩ := (Bool.and_eq_true _ _).to_iff.mp h
      obtain ⟨ha, hz⟩ := isLower_iff.mp hfirst
      exact ⟨[c], ⟨c, ha, hz, rfl⟩, cs, List.all_eq_true.mp hrest, rfl⟩
  · rintro ⟨_, ⟨c, ha, hz, rfl⟩, rest, hrest, rfl⟩
    exact (Bool.and_eq_true _ _).to_iff.mpr
      ⟨isLower_iff.mpr ⟨ha, hz⟩, List.all_eq_true.mpr hrest⟩

instance (cs : List Char) : Decidable (cs ∈ tags) :=
  decidable_of_iff _ isTag_iff

/-! ## The order of bytes -/

/-- The bytes of a text. -/
def bytes (s : String) : List UInt8 :=
  s.toUTF8.data.toList

/-- A text of which every letter takes one byte. -/
def IsAscii (s : String) : Prop :=
  ∀ c ∈ s.toList, c.toNat < 128

theorem bytes_eq_flatMap (s : String) : bytes s = s.toList.flatMap String.utf8EncodeChar := by
  rw [bytes, String.toUTF8_eq_toByteArray, ← String.utf8Encode_toList, List.utf8Encode,
    List.toList_data_toByteArray]

/-- Every letter of an ASCII text is its own byte. -/
theorem bytes_eq_map {s : String} (hs : IsAscii s) :
    bytes s = s.toList.map fun c => c.val.toUInt8 := by
  rw [bytes_eq_flatMap, List.map_eq_flatMap]
  refine List.flatMap_congr fun c hc => String.utf8EncodeChar_eq_singleton ?_
  exact Char.utf8Size_eq_one_iff.mpr (UInt32.le_iff_toNat_le.mpr (Nat.le_of_lt_succ (hs c hc)))

theorem toUInt8_lt_toUInt8 {c d : Char} (hc : c.toNat < 128) (hd : d.toNat < 128) (h : c < d) :
    c.val.toUInt8 < d.val.toUInt8 := by
  have h : c.toNat < d.toNat := UInt32.lt_iff_toNat_lt.mp h
  rw [UInt8.lt_iff_toNat_lt, UInt32.toNat_toUInt8, UInt32.toNat_toUInt8]
  simp only [Char.toNat] at hc hd h
  omega

theorem map_toUInt8_lt {cs ds : List Char} (hcs : ∀ c ∈ cs, c.toNat < 128)
    (hds : ∀ c ∈ ds, c.toNat < 128) (h : List.Lex (· < ·) cs ds) :
    cs.map (fun c => c.val.toUInt8) < ds.map fun c => c.val.toUInt8 := by
  induction h with
  | nil => exact .nil
  | cons _ ih =>
    exact .cons (ih (fun c hc => hcs c (.tail _ hc)) fun c hc => hds c (.tail _ hc))
  | rel h => exact .rel (toUInt8_lt_toUInt8 (hcs _ (.head _)) (hds _ (.head _)) h)

/-- The bytes of ASCII texts are in the order of the texts. -/
theorem bytes_lt_bytes {s t : String} (hs : IsAscii s) (ht : IsAscii t) (h : s < t) :
    bytes s < bytes t := by
  rw [bytes_eq_map hs, bytes_eq_map ht]
  exact map_toUInt8_lt hs ht h

theorem letter_of_isTag {cs : List Char} (h : isTag cs = true) :
    ∀ c ∈ cs, (c.isLower || c.isDigit || c == '_') = true := by
  cases cs with
  | nil => cases h
  | cons first rest =>
    obtain ⟨hfirst, hrest⟩ := (Bool.and_eq_true _ _).to_iff.mp h
    refine List.forall_mem_cons.mpr ⟨?_, List.all_eq_true.mp hrest⟩
    rw [hfirst, Bool.true_or, Bool.true_or]

/-- The letters of a tag take one byte each. -/
theorem isAscii_of_isTag {s : String} (h : isTag s.toList = true) : IsAscii s := by
  intro c hc
  have hletter := letter_of_isTag h c hc
  simp only [Bool.or_eq_true, beq_iff_eq] at hletter
  rcases hletter with (hlower | hdigit) | rfl
  · exact Nat.lt_of_le_of_lt (UInt32.le_iff_toNat_le.mp (isLower_iff.mp hlower).2) (by decide)
  · exact Nat.lt_of_le_of_lt (UInt32.le_iff_toNat_le.mp (isDigit_iff.mp hdigit).2) (by decide)
  · decide

end Text

end FieldCatalog
