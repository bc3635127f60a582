import FieldCatalog.Json.Parser
import FieldCatalog.Json.Printer
import FieldCatalog.Proofs.Results
import Mathlib.Data.List.TakeWhile

/-!
# Tokens that are read back

A string that is written is read up to its closing quotation mark, whatever comes after it. The end of
an integer shows only in what follows: it must not go on like a number.

## Main definitions

* `Json.Follows`: a text that may follow a value

## Main results

* `Json.stringBody_escape`: a string is read back
* `Json.scalar_integerChars`: an integer of 64 bits is read back
-/

namespace FieldCatalog

namespace Json

/-- A text that may follow a value: nothing, or a text that begins with a comma or a closing
bracket. -/
def Follows (cs : List Char) : Prop :=
  ∀ c ∈ cs.head?, c = ',' ∨ c = ']' ∨ c = '\x7d'

theorem follows_nil : Follows [] := fun _ h => by cases h

theorem follows_cons {c : Char} {cs : List Char} (h : c = ',' ∨ c = ']' ∨ c = '\x7d') :
    Follows (c :: cs) := by
  intro c' hc'
  cases hc'
  exact h

theorem skipSpace_cons {c : Char} {cs : List Char} (h : isSpace c = false) :
    skipSpace (c :: cs) = c :: cs :=
  List.dropWhile_cons_of_neg (by rw [h]; exact Bool.false_ne_true)

/-! ## Strings -/

variable {c : Char} {cs rest : List Char}

/-- The four digits of a control character are read back. -/
theorem codeUnit_hexDigits (h : c.toNat < 0x20) : codeUnit (hexDigits c ++ rest) = .ok c.toNat := by
  have hall : ∀ n < 0x20, Text.hexNumber? ['0', '0', Nat.digitChar (n / 16), Nat.digitChar (n % 16)] =
      some n ∧ ¬ (String.ofList ['0', '0', Nat.digitChar (n / 16),
        Nat.digitChar (n % 16)]).utf8ByteSize < 4 := by
    decide
  obtain ⟨hnumber, hsize⟩ := hall c.toNat h
  simp only [codeUnit, hexDigits, List.cons_append, List.nil_append, List.take_succ_cons,
    List.take_zero, if_neg hsize, hnumber]

/-- A control character that has no escape of its own is read back from its number. -/
theorem escaped_hexDigits (h : c.toNat < 0x20) :
    escaped ('u' :: (hexDigits c ++ rest)) = .ok (c, 5) := by
  have hlow : ¬ (0xDC00 ≤ c.toNat ∧ c.toNat ≤ 0xDFFF) := by omega
  have hhigh : ¬ (0xD800 ≤ c.toNat ∧ c.toNat ≤ 0xDBFF) := by omega
  simp only [escaped, codeUnit_hexDigits h, bind, Except.bind, if_neg hlow, if_neg hhigh,
    Char.ofNat_toNat]

/-- A backslash and what belongs to it are read as one character. -/
theorem stringChars_backslash (cs : List Char) {used : Nat} {tail : List Char}
    (h : escaped (cs ++ tail) = .ok (c, used)) (hused : used = cs.length) :
    stringChars ('\\' :: (cs ++ tail)) = (stringChars tail).map fun read => (c :: read.1, read.2) := by
  have hdrop : (cs ++ tail).drop used = tail := by rw [hused, List.drop_left]
  rw [stringChars, h]
  show (stringChars ((cs ++ tail).drop used) >>= _) = _
  rw [hdrop]
  cases stringChars tail <;> rfl

/-- A character that needs no escape stands for itself. -/
theorem stringChars_plain (hquote : c ≠ '"') (hbackslash : c ≠ '\\') (hcontrol : ¬ c.toNat < 0x20) :
    stringChars (c :: rest) = (stringChars rest).map fun read => (c :: read.1, read.2) := by
  rw [stringChars.eq_def]
  split
  · next heq => cases heq
  · next heq => exact absurd (List.cons.inj heq).1 hquote
  · next heq => exact absurd (List.cons.inj heq).1 hbackslash
  · next heq =>
    cases heq
    rw [if_neg hcontrol]
    cases stringChars rest <;> rfl

/-- However a character is written, it is read back. -/
theorem stringChars_escape (c : Char) (rest : List Char) :
    stringChars (escape c ++ rest) = (stringChars rest).map fun read => (c :: read.1, read.2) := by
  unfold escape
  split
  · exact stringChars_backslash ['"'] rfl rfl
  · exact stringChars_backslash ['\\'] rfl rfl
  · exact stringChars_backslash ['b'] rfl rfl
  · exact stringChars_backslash ['f'] rfl rfl
  · exact stringChars_backslash ['n'] rfl rfl
  · exact stringChars_backslash ['r'] rfl rfl
  · exact stringChars_backslash ['t'] rfl rfl
  · next hquote hbackslash _ _ _ _ _ =>
    split
    · next hcontrol =>
      exact stringChars_backslash ('u' :: hexDigits c) (escaped_hexDigits hcontrol) rfl
    · next hcontrol => exact stringChars_plain hquote hbackslash hcontrol

theorem stringChars_flatMap (cs rest : List Char) :
    stringChars (cs.flatMap escape ++ '"' :: rest) = .ok (cs, rest) := by
  induction cs with
  | nil => rw [List.flatMap_nil, List.nil_append, stringChars]
  | cons c cs ih =>
    rw [List.flatMap_cons, List.append_assoc, stringChars_escape, ih]
    rfl

/-- A string is read back up to its closing quotation mark. -/
theorem stringBody_escape (s : String) (rest : List Char) :
    stringBody (s.toList.flatMap escape ++ '"' :: rest) = .ok (s, rest) := by
  rw [stringBody, stringChars_flatMap]
  show Except.ok (String.ofList s.toList, rest) = _
  rw [String.ofList_toList]

/-! ## Integers -/

/-- The number that digits go on to from a value. -/
def digitsFrom (value : Nat) (ds : List Nat) : Nat :=
  ds.foldl (fun value d => 10 * value + d) value

theorem le_digitsFrom (value : Nat) (ds : List Nat) : value ≤ digitsFrom value ds := by
  induction ds generalizing value with
  | nil => exact Nat.le_refl value
  | cons d ds ih => exact Nat.le_trans (by omega) (ih (10 * value + d))

/-- Digits of a number that fits a word are all absorbed. -/
theorem absorb_of_lt {value : Nat} {ds : List Nat} (h : digitsFrom value ds < UInt64.size) :
    absorb value ds = (digitsFrom value ds, []) := by
  induction ds generalizing value with
  | nil => rfl
  | cons d ds ih =>
    have hle : 10 * value + d ≤ digitsFrom value (d :: ds) := le_digitsFrom (10 * value + d) ds
    rw [absorb, if_pos (Nat.lt_of_le_of_lt hle h)]
    exact ih h

/-- The digits of a number as they are read. -/
def digitValues (n : Nat) : List Nat :=
  (Nat.toDigits 10 n).map fun c => c.toNat - '0'.toNat

theorem digitsFrom_digitValues (n : Nat) : digitsFrom 0 (digitValues n) = n := by
  rw [digitsFrom, digitValues, List.foldl_map]
  exact Nat.ofDigitChars_ten_toDigits

/-- A number is written without a leading zero. -/
theorem head_digitValues {n : Nat} (hn : 0 < n) : ∀ d ∈ (digitValues n).head?, d ≠ 0 := by
  induction n using Nat.strongRecOn with
  | ind n ih =>
    rw [digitValues, Nat.toDigits_eq_if (by decide)]
    split
    · next hlt =>
      have hall : ∀ n < 10, 0 < n → (Nat.digitChar n).toNat - '0'.toNat ≠ 0 := by decide
      intro d hd
      cases hd
      exact hall n hlt hn
    · -- The first digit is that of the number without its last one.
      next hge =>
      have hfront := ih (n / 10) (by omega) (by omega)
      intro d hd
      refine hfront d ?_
      rw [digitValues]
      rw [List.map_append, List.head?_append] at hd
      cases hdigits : Nat.toDigits 10 (n / 10) with
      | nil => exact absurd hdigits Nat.toDigits_ne_nil
      | cons c cs =>
        rw [hdigits] at hd
        exact hd

/-- A character that is no digit differs from every digit. -/
theorem ne_of_isDigit {other : Char} (h : c.isDigit = true) (hother : other.isDigit = false) :
    c ≠ other := by
  rintro rfl
  rw [h] at hother
  cases hother

/-- A number is written with a digit at least. -/
theorem exists_toDigits_eq_cons (n : Nat) :
    ∃ c cs, Nat.toDigits 10 n = c :: cs ∧ c.isDigit = true := by
  cases hdigits : Nat.toDigits 10 n with
  | nil => exact absurd hdigits Nat.toDigits_ne_nil
  | cons c cs =>
    have hmem : c ∈ Nat.toDigits 10 n := hdigits ▸ List.mem_cons_self
    exact ⟨c, cs, rfl, Nat.isDigit_of_mem_toDigits (by decide) (by decide) hmem⟩

theorem isDigit_of_follows (h : Follows rest) : ∀ c ∈ rest.head?, c.isDigit = false := by
  intro c hc
  rcases h c hc with rfl | rfl | rfl <;> decide

theorem digitRun_toDigits (n : Nat) (h : Follows rest) :
    digitRun (Nat.toDigits 10 n ++ rest) = (digitValues n, rest) := by
  have hdigits : ∀ c ∈ Nat.toDigits 10 n, c.isDigit = true := fun c =>
    Nat.isDigit_of_mem_toDigits (by decide) (by decide)
  have hend := isDigit_of_follows h
  have htake : rest.takeWhile Char.isDigit = [] := by
    cases rest with
    | nil => rfl
    | cons c cs => rw [List.takeWhile_cons, hend c rfl]; rfl
  have hdrop : rest.dropWhile Char.isDigit = rest := by
    cases rest with
    | nil => rfl
    | cons c cs => rw [List.dropWhile_cons, hend c rfl]; rfl
  rw [digitRun, List.takeWhile_append_of_pos hdigits, List.dropWhile_append_of_pos hdigits, htake,
    hdrop, List.append_nil, digitValues]

theorem wholePart_toDigits (n : Nat) (h : Follows rest) :
    wholePart (Nat.toDigits 10 n ++ rest) = .ok (digitValues n, rest) := by
  have hsome : someDigits (Nat.toDigits 10 n ++ rest) = .ok (digitValues n, rest) := by
    rw [← digitRun_toDigits n h]
    obtain ⟨c, cs, hdigits, hc⟩ := exists_toDigits_eq_cons n
    rw [hdigits, List.cons_append, someDigits, if_pos hc]
  rw [wholePart, hsome]
  simp only [bind, Except.bind]
  split
  · -- Only the number zero begins with a zero.
    next first others heq =>
    rcases Nat.eq_zero_or_pos n with rfl | hn
    · cases heq
    · exact absurd rfl (head_digitValues hn 0 (by rw [heq]; rfl))
  · rfl

theorem fractionPart_of_follows (h : Follows rest) : fractionPart rest = .ok (none, rest) := by
  unfold fractionPart
  split
  · exact absurd (h '.' rfl) (by decide)
  · rfl

theorem exponentPart_of_follows (h : Follows rest) : exponentPart rest = .ok (none, rest) := by
  unfold exponentPart
  split
  · next c cs =>
    rw [if_neg]
    rintro (rfl | rfl)
    · exact absurd (h 'e' rfl) (by decide)
    · exact absurd (h 'E' rfl) (by decide)
  · rfl

/-- The digits of an integer are read back, once its sign has been. -/
theorem number_toDigits {i : Int} (hi : InRange i) (h : Follows rest) :
    number (decide (i < 0)) (Nat.toDigits 10 i.natAbs ++ rest) = .ok (.integer i, rest) := by
  have hword : i.natAbs < UInt64.size := by
    obtain ⟨hlow, hhigh⟩ := hi
    rw [show Int64.minValue.toInt = -9223372036854775808 from rfl] at hlow
    rw [show UInt64.size = 18446744073709551616 from rfl] at hhigh ⊢
    omega
  have habsorb : absorb 0 (digitValues i.natAbs) = (i.natAbs, []) := by
    have hdigits : digitsFrom 0 (digitValues i.natAbs) = i.natAbs := digitsFrom_digitValues _
    rw [absorb_of_lt (by rw [hdigits]; exact hword), hdigits]
  have hvalue : Literal.value? ⟨decide (i < 0), digitValues i.natAbs, none, none⟩ =
      some (.integer i) := by
    simp only [Literal.value?, habsorb, true_and]
    by_cases hneg : i < 0
    · have hsmall : 0 < i.natAbs ∧ Int64.minValue.toInt ≤ -(i.natAbs : Int) := by
        refine ⟨by omega, ?_⟩
        rw [show -(i.natAbs : Int) = i by omega]
        exact hi.1
      have hsign : -(i.natAbs : Int) = i := by omega
      rw [if_pos (.inr hsmall), decide_eq_true hneg, if_pos rfl, hsign]
    · have hsign : (i.natAbs : Int) = i := by omega
      rw [if_pos (.inl (decide_eq_false hneg)), decide_eq_false hneg, hsign]
      rfl
  simp only [number, wholePart_toDigits _ h, fractionPart_of_follows h, exponentPart_of_follows h,
    bind, Except.bind, hvalue]

/-- A digit begins a number. -/
theorem scalar_of_isDigit (h : c.isDigit = true) : scalar (c :: cs) = number false (c :: cs) := by
  have hne : ∀ {other : Char}, other.isDigit = false → c ≠ other := ne_of_isDigit h
  rw [scalar.eq_def]
  split
  · next heq => cases heq
  · next heq => exact absurd (List.cons.inj heq).1 (hne (by decide))
  · next heq => exact absurd (List.cons.inj heq).1 (hne (by decide))
  · next heq => exact absurd (List.cons.inj heq).1 (hne (by decide))
  · next heq => exact absurd (List.cons.inj heq).1 (hne (by decide))
  · next heq => exact absurd (List.cons.inj heq).1 (hne (by decide))
  · next heq =>
    cases heq
    rw [if_pos h]

/-- An integer of 64 bits is read back. -/
theorem scalar_integerChars {i : Int} (hi : InRange i) (h : Follows rest) :
    scalar (integerChars i ++ rest) = .ok (.integer i, rest) := by
  have hnumber := number_toDigits hi h
  unfold integerChars
  by_cases hneg : i < 0
  · rw [if_pos hneg, List.cons_append, scalar]
    rwa [decide_eq_true hneg] at hnumber
  · rw [if_neg hneg]
    rw [decide_eq_false hneg] at hnumber
    obtain ⟨c, cs, hdigits, hc⟩ := exists_toDigits_eq_cons i.natAbs
    rw [hdigits] at hnumber ⊢
    rw [List.cons_append, scalar_of_isDigit hc, ← List.cons_append, hnumber]

end Json

end FieldCatalog
