import FieldCatalog.Proofs.FieldType.Preparation

/-!
# What the built-in types accept

A rule reads the values that it knows by name, one after another, and fails at the first that it cannot
use. What it accepts in the end is told here value by value, in no order: a value is absent, which null
stands for as well, or it is of a certain kind and within certain bounds, and two values that depend on
each other agree when both are there. Values under other names do not matter.

## Main definitions

* `Json.Members.given`: the value under a name
* `Json.Members.SuitsText`, `Json.Members.SuitsTextarea`, `Json.Members.SuitsSelect`,
  `Json.Members.SuitsCheckbox`, `Json.Members.SuitsDate`: what the built-in types accept
* `Json.Members.Suits`, `FieldType.readNames`: the same for the type of a tag, and the names it reads
* `Yields`: what a reader makes of a value that may be absent

## Main results

* `Rule.text_eq_ok_iff`, `Rule.textarea_eq_ok_iff`, `Rule.select_eq_ok_iff`, `Rule.checkbox_eq_ok_iff`,
  `Rule.date_eq_ok_iff`: the rules accept just that
* `Registry.prepare_builtin_eq_ok_iff`: so do the built-in types
* `Registry.prepare_builtin_outcomes`: all outcomes of preparing a configuration for a built-in type, and
  the values that they depend on
-/

namespace FieldCatalog

/-! ## Configurations told by their values -/

/-- An integer between two bounds. A number with a point or an exponent is none. -/
def Json.IsIntegerIn (min max : Int) (json : Json) : Prop :=
  ∃ n, json = .integer n ∧ min ≤ n ∧ n ≤ max

/-- A text. -/
def Json.IsString (json : Json) : Prop :=
  ∃ s, json = .string s

namespace Json.Members

/-- The value under a name; null counts as absent. -/
def given (configdata : Members) (name : String) : Option Json :=
  match configdata.lookup name with
  | some .null => none
  | value => value

/-- A configuration of a line of text: a display size up to 200 and a length up to 1333, and a default
value of no more characters than the length. -/
structure SuitsText (configdata : Members) : Prop where
  displaysize : ∀ json ∈ configdata.given "displaysize", json.IsIntegerIn 1 200
  maxlength : ∀ json ∈ configdata.given "maxlength", json.IsIntegerIn 1 1333
  defaultvalue : ∀ json ∈ configdata.given "defaultvalue", json.IsString
  fits : ∀ value bound, configdata.given "defaultvalue" = some (.string value) →
    configdata.given "maxlength" = some (.integer bound) → value.length ≤ bound

/-- A configuration of a longer text: any text as its default value. -/
structure SuitsTextarea (configdata : Members) : Prop where
  defaultvalue : ∀ json ∈ configdata.given "defaultvalue", json.IsString

/-- An option that a configuration offers: a line of its options without the blanks around it, if
something is left of the line. -/
def Offers (configdata : Members) (option : String) : Prop :=
  ∃ text line, configdata.given "options" = some (.string text) ∧ line ∈ Text.lines text.toList ∧
    Text.trimChars line = option.toList ∧ option ≠ ""

/-- A configuration of a choice: at least one option, and a default value that is empty or one of the
options. -/
structure SuitsSelect (configdata : Members) : Prop where
  options : ∃ option, configdata.Offers option
  defaultvalue : ∀ json ∈ configdata.given "defaultvalue",
    ∃ value, json = .string value ∧ (value = "" ∨ configdata.Offers value)

/-- A configuration of a check mark: a truth value, zero or one as its default. -/
structure SuitsCheckbox (configdata : Members) : Prop where
  checkbydefault : ∀ json ∈ configdata.given "checkbydefault",
    (∃ b, json = .bool b) ∨ json.IsIntegerIn 0 1

/-- A configuration of a date: two bounds among the dates there are, in order. -/
structure SuitsDate (configdata : Members) : Prop where
  mindate : ∀ json ∈ configdata.given "mindate",
    json.IsIntegerIn Rule.earliestDate Rule.latestDate
  maxdate : ∀ json ∈ configdata.given "maxdate",
    json.IsIntegerIn Rule.earliestDate Rule.latestDate
  ordered : ∀ min max, configdata.given "mindate" = some (.integer min) →
    configdata.given "maxdate" = some (.integer max) → min ≤ max

/-- A configuration that suits the built-in type of a tag. -/
def Suits (configdata : Members) : String → Prop
  | "checkbox" => configdata.SuitsCheckbox
  | "date" => configdata.SuitsDate
  | "select" => configdata.SuitsSelect
  | "text" => configdata.SuitsText
  | "textarea" => configdata.SuitsTextarea
  | _ => False

end Json.Members

/-- The names under which the built-in type of a tag looks for values. -/
def FieldType.readNames : String → List String
  | "checkbox" => ["checkbydefault"]
  | "date" => ["mindate", "maxdate"]
  | "select" => ["options", "defaultvalue"]
  | "text" => ["displaysize", "maxlength", "defaultvalue"]
  | "textarea" => ["defaultvalue"]
  | _ => []

/-! ## Reading values -/

namespace Json

theorem natural?_eq_some_iff {json : Json} {n : Nat} :
    json.natural? = some n ↔ json = .integer n ∧ n < UInt64.size := by
  cases json with
  | integer i =>
    simp only [natural?, Json.integer.injEq]
    constructor
    · intro h
      split at h
      · have := Option.some.inj h
        omega
      · cases h
    · rintro ⟨rfl, hlt⟩
      rw [if_pos ⟨Int.natCast_nonneg n, Int.ofNat_lt.mpr hlt⟩, Int.toNat_natCast]
  | _ => simp [natural?]

theorem signed?_eq_some_iff {json : Json} {i : Int} :
    json.signed? = some i ↔
      json = .integer i ∧ Int64.minValue.toInt ≤ i ∧ i ≤ Int64.maxValue.toInt := by
  cases json with
  | integer j =>
    simp only [signed?, Json.integer.injEq]
    constructor
    · intro h
      split at h
      · next hrange => exact Option.some.inj h ▸ ⟨rfl, hrange⟩
      · cases h
    · rintro ⟨rfl, hrange⟩
      exact if_pos hrange
  | _ => simp [signed?]

theorem string?_eq_some_iff {json : Json} {s : String} :
    json.string? = some s ↔ json = .string s := by
  cases json <;> simp [string?]

end Json

theorem Json.Members.given_eq_none_iff {configdata : Json.Members} {name : String} :
    configdata.given name = none ↔
      configdata.lookup name = none ∨ configdata.lookup name = some .null := by
  unfold given
  split
  · next h => simp [h]
  · next hnull => exact ⟨.inl, fun h => h.resolve_right hnull⟩

theorem Json.Members.given_eq_some_iff {configdata : Json.Members} {name : String} {json : Json} :
    configdata.given name = some json ↔ configdata.lookup name = some json ∧ json ≠ .null := by
  unfold given
  split
  · next h => simp [h, eq_comm]
  · next hnull =>
    refine ⟨fun h => ⟨h, ?_⟩, And.left⟩
    rintro rfl
    exact hnull h

/-- What a reader makes of a value that may be absent: nothing if it is, and something if it is not. -/
def Yields {α : Type} (reader : Json → Option α) (given : Option Json) (read : Option α) : Prop :=
  given.map reader = read.map some

section Yields

variable {α : Type} {reader : Json → Option α} {given : Option Json} {read : Option α} {json : Json}

theorem yields_none_iff : Yields reader none read ↔ read = none := by
  cases read <;> simp [Yields]

theorem yields_some_iff :
    Yields reader (some json) read ↔ ∃ a, reader json = some a ∧ read = some a := by
  cases read <;> simp [Yields]

/-- A reader that can read every value that is given makes something of it. -/
theorem exists_yields (h : ∀ json ∈ given, ∃ a, reader json = some a) :
    ∃ read, Yields reader given read := by
  cases given with
  | none => exact ⟨none, yields_none_iff.mpr rfl⟩
  | some json =>
    obtain ⟨a, ha⟩ := h json rfl
    exact ⟨some a, yields_some_iff.mpr ⟨a, ha, rfl⟩⟩

/-- What is given has been read. -/
theorem Yields.exists_read (h : Yields reader given read) (hjson : given = some json) :
    ∃ a, reader json = some a ∧ read = some a := by
  rw [hjson] at h
  exact yields_some_iff.mp h

/-- What has been read is given. -/
theorem Yields.exists_given (h : Yields reader given read) {a : α} (ha : read = some a) :
    ∃ json, given = some json ∧ reader json = some a := by
  cases given with
  | none => cases (yields_none_iff.mp h).symm.trans ha
  | some json =>
    obtain ⟨b, hb, hread⟩ := yields_some_iff.mp h
    exact ⟨json, rfl, hb.trans (hread.symm.trans ha)⟩

end Yields

namespace FieldType

open Json.Members

variable {tag name : String} {configdata : Json.Members}

/-- A text is read, if a value is given. -/
theorem optionalString_eq_ok_iff {read : Option String} :
    optionalString tag name configdata = .ok read ↔
      Yields Json.string? (configdata.given name) read := by
  unfold optionalString
  split
  · next h => rw [given_eq_none_iff.mpr (.inl h), yields_none_iff, Except.ok.injEq, eq_comm]
  · next h => rw [given_eq_none_iff.mpr (.inr h), yields_none_iff, Except.ok.injEq, eq_comm]
  · next s h =>
    rw [given_eq_some_iff.mpr ⟨h, Json.noConfusion⟩, yields_some_iff]
    simp [Json.string?, eq_comm]
  · next json hnull hstring h =>
    rw [given_eq_some_iff.mpr ⟨h, hnull⟩, yields_some_iff]
    refine iff_of_false (fun he => nomatch he) ?_
    rintro ⟨s, hs, -⟩
    exact hstring s (Json.string?_eq_some_iff.mp hs)

/-- A natural number is read, if a value is given. -/
theorem optionalNatural_eq_ok_iff {read : Option Nat} :
    optionalNatural tag name configdata = .ok read ↔
      Yields Json.natural? (configdata.given name) read := by
  unfold optionalNatural
  split
  · next h => rw [given_eq_none_iff.mpr (.inl h), yields_none_iff, Except.ok.injEq, eq_comm]
  · next h => rw [given_eq_none_iff.mpr (.inr h), yields_none_iff, Except.ok.injEq, eq_comm]
  · next json hnull h =>
    rw [given_eq_some_iff.mpr ⟨h, hnull⟩, yields_some_iff]
    split
    · next n hn => simp [hn, eq_comm]
    · next hn => simp [hn]

end FieldType

namespace Rule

open FieldType Json.Members

variable {name : String} {configdata : Json.Members} {given : Option Json}

/-- A bound on dates is read, if a value is given, and lies among the dates there are. -/
theorem dateBound_eq_ok_iff {read : Option Int} :
    dateBound name configdata = .ok read ↔ Yields Json.signed? (configdata.given name) read ∧
      ∀ stamp ∈ read, earliestDate ≤ stamp ∧ stamp ≤ latestDate := by
  have habsent : (Except.ok none : Except Failure (Option Int)) = .ok read ↔
      Yields Json.signed? none read ∧
        ∀ stamp ∈ read, earliestDate ≤ stamp ∧ stamp ≤ latestDate := by
    rw [yields_none_iff, Except.ok.injEq, eq_comm]
    exact ⟨fun h => ⟨h, fun stamp hs => nomatch h ▸ hs⟩, And.left⟩
  unfold dateBound
  split
  · next h => rw [given_eq_none_iff.mpr (.inl h), habsent]
  · next h => rw [given_eq_none_iff.mpr (.inr h), habsent]
  · next json hnull h =>
    rw [given_eq_some_iff.mpr ⟨h, hnull⟩, yields_some_iff]
    split
    · next hs => simp [hs]
    · next stamp hs =>
      split
      · next hrange =>
        constructor
        · rintro ⟨⟩
          exact ⟨⟨stamp, hs, rfl⟩, fun s he => Option.some.inj he ▸ hrange⟩
        · rintro ⟨⟨s, hs', rfl⟩, -⟩
          rw [hs.symm.trans hs']
      · next hrange =>
        refine iff_of_false (fun he => nomatch he) ?_
        rintro ⟨⟨s, hs', rfl⟩, hr⟩
        obtain rfl := Option.some.inj (hs.symm.trans hs')
        exact hrange (hr stamp rfl)

/-- A number is within its bound when the value that it was read from is. -/
theorem within_eq_ok_iff {bound : Nat} {read : Option Nat} (h : Yields Json.natural? given read) :
    within name bound read = .ok () ↔ ∀ json ∈ given, json.IsIntegerIn 1 bound := by
  cases given with
  | none =>
    rw [yields_none_iff.mp h]
    exact iff_of_true rfl fun json hjson => nomatch hjson
  | some json =>
    obtain ⟨n, hn, rfl⟩ := yields_some_iff.mp h
    obtain ⟨rfl, -⟩ := Json.natural?_eq_some_iff.mp hn
    simp only [within, Option.mem_def, Option.some.injEq, forall_eq', Json.IsIntegerIn,
      Json.integer.injEq, exists_eq_left']
    split
    · next hrange => exact iff_of_true rfl (by omega)
    · next hrange => exact iff_of_false (fun he => nomatch he) (by omega)

/-- An integer between natural numbers of 64 bits can be read. -/
theorem exists_yields_natural {bound : Nat} (hbound : bound < UInt64.size)
    (h : ∀ json ∈ given, json.IsIntegerIn 1 bound) : ∃ read, Yields Json.natural? given read := by
  refine exists_yields fun json hjson => ?_
  obtain ⟨n, rfl, hlow, hhigh⟩ := h json hjson
  obtain ⟨m, rfl⟩ := Int.eq_ofNat_of_zero_le (Int.le_trans Int.one_nonneg hlow)
  exact ⟨m, Json.natural?_eq_some_iff.mpr ⟨rfl, by omega⟩⟩

theorem exists_yields_string (h : ∀ json ∈ given, json.IsString) :
    ∃ read, Yields Json.string? given read := by
  refine exists_yields fun json hjson => ?_
  obtain ⟨s, rfl⟩ := h json hjson
  exact ⟨s, rfl⟩

theorem isString_of_yields {read : Option String} (h : Yields Json.string? given read) :
    ∀ json ∈ given, json.IsString := by
  intro json hjson
  obtain ⟨s, hs, -⟩ := h.exists_read hjson
  exact ⟨s, Json.string?_eq_some_iff.mp hs⟩

theorem text_eq_ok_iff : text configdata = .ok () ↔ configdata.SuitsText := by
  simp only [text, bind_eq_ok_iff, optionalNatural_eq_ok_iff, optionalString_eq_ok_iff]
  constructor
  · rintro ⟨size, hsize, length, hlength, _, hsize', _, hlength', value, hvalue, hfits⟩
    refine
      { displaysize := (within_eq_ok_iff hsize).mp hsize'
        maxlength := (within_eq_ok_iff hlength).mp hlength'
        defaultvalue := isString_of_yields hvalue
        fits := fun s bound hs hbound => ?_ }
    obtain ⟨s, hs, rfl⟩ := hvalue.exists_read hs
    obtain ⟨n, hn, rfl⟩ := hlength.exists_read hbound
    obtain ⟨he, -⟩ := Json.natural?_eq_some_iff.mp hn
    cases Json.string?_eq_some_iff.mp hs
    cases he
    by_contra hlong
    dsimp only at hfits
    rw [if_pos (by omega)] at hfits
    cases hfits
  · intro h
    obtain ⟨size, hsize⟩ := exists_yields_natural (by decide) h.displaysize
    obtain ⟨length, hlength⟩ := exists_yields_natural (by decide) h.maxlength
    obtain ⟨value, hvalue⟩ := exists_yields_string h.defaultvalue
    refine ⟨size, hsize, length, hlength, (), (within_eq_ok_iff hsize).mpr h.displaysize, (),
      (within_eq_ok_iff hlength).mpr h.maxlength, value, hvalue, ?_⟩
    split
    · next s bound =>
      obtain ⟨json, hs, hs'⟩ := hvalue.exists_given rfl
      obtain ⟨number, hb, hb'⟩ := hlength.exists_given rfl
      obtain rfl := Json.string?_eq_some_iff.mp hs'
      obtain ⟨rfl, -⟩ := Json.natural?_eq_some_iff.mp hb'
      have hle := h.fits s bound hs hb
      exact if_neg (by omega)
    · rfl

theorem textarea_eq_ok_iff : textarea configdata = .ok () ↔ configdata.SuitsTextarea := by
  simp only [textarea, bind_eq_ok_iff, optionalString_eq_ok_iff, and_true]
  constructor
  · rintro ⟨value, hvalue⟩
    exact ⟨isString_of_yields hvalue⟩
  · exact fun h => exists_yields_string h.defaultvalue

/-- The options of a configuration are those that it offers. -/
theorem mem_options_iff {option : String} :
    option ∈ Select.options configdata ↔ configdata.Offers option := by
  unfold Select.options Offers
  split
  · next s h =>
    rw [given_eq_some_iff.mpr ⟨h, Json.noConfusion⟩]
    simp only [Text.entries, List.mem_map, List.mem_filter, Bool.not_eq_true', List.isEmpty_eq_false_iff]
    constructor
    · rintro ⟨_, ⟨⟨line, hline, rfl⟩, hne⟩, rfl⟩
      refine ⟨s, line, rfl, hline, String.toList_ofList.symm, fun he => hne ?_⟩
      rw [← String.toList_ofList (l := Text.trimChars line), he]
      rfl
    · rintro ⟨_, line, ⟨⟩, hline, htrim, hne⟩
      refine ⟨option.toList, ⟨⟨line, hline, htrim⟩, fun he => hne ?_⟩, String.ofList_toList⟩
      exact String.toList_eq_nil_iff.mp he
  · next hstring =>
    refine iff_of_false List.not_mem_nil ?_
    rintro ⟨s, _, hs, -⟩
    exact hstring s (given_eq_some_iff.mp hs).1

theorem select_eq_ok_iff : select configdata = .ok () ↔ configdata.SuitsSelect := by
  simp only [select, bind_eq_ok_iff, optionalString_eq_ok_iff]
  constructor
  · rintro ⟨options, hoptions, hselect⟩
    split at hselect
    · cases hselect
    · next hsome =>
      obtain ⟨value, hvalue, hdefault⟩ := bind_eq_ok_iff.mp hselect
      rw [optionalString_eq_ok_iff] at hvalue
      obtain ⟨option, hoption⟩ := List.exists_mem_of_ne_nil _ (mt List.isEmpty_iff.mpr hsome)
      refine ⟨⟨option, mem_options_iff.mp hoption⟩, fun json hjson => ?_⟩
      obtain ⟨s, hs, rfl⟩ := hvalue.exists_read hjson
      refine ⟨s, Json.string?_eq_some_iff.mp hs, ?_⟩
      dsimp only at hdefault
      split at hdefault
      · next hs =>
        rw [Bool.or_eq_true, String.isEmpty_iff, List.contains_iff_mem, mem_options_iff] at hs
        exact hs
      · cases hdefault
  · rintro ⟨⟨option, hoption⟩, hdefault⟩
    have hsome : ¬ (Select.options configdata).isEmpty = true := fun he =>
      List.ne_nil_of_mem (mem_options_iff.mpr hoption) (List.isEmpty_iff.mp he)
    obtain ⟨text, _, htext, -⟩ := hoption
    obtain ⟨value, hvalue⟩ := exists_yields_string fun json hjson => by
      obtain ⟨s, hs, -⟩ := hdefault json hjson
      exact ⟨s, hs⟩
    refine ⟨some text, htext ▸ yields_some_iff.mpr ⟨text, rfl, rfl⟩, ?_⟩
    rw [if_neg hsome, bind_eq_ok_iff]
    refine ⟨value, optionalString_eq_ok_iff.mpr hvalue, ?_⟩
    split
    · next s =>
      obtain ⟨json, hjson, hs⟩ := hvalue.exists_given rfl
      obtain rfl := Json.string?_eq_some_iff.mp hs
      obtain ⟨_, ⟨⟩, hs⟩ := hdefault _ hjson
      rw [← mem_options_iff, ← List.contains_iff_mem, ← String.isEmpty_iff, ← Bool.or_eq_true] at hs
      exact if_pos hs
    · rfl

theorem checkbox_eq_ok_iff : checkbox configdata = .ok () ↔ configdata.SuitsCheckbox := by
  -- The configuration suits when nothing is given, or a value that would do.
  have habsent (h : configdata.given "checkbydefault" = none) : configdata.SuitsCheckbox :=
    ⟨fun json hjson => nomatch h.symm.trans hjson⟩
  have hvalue {json : Json} (h : configdata.lookup "checkbydefault" = some json)
      (hnull : json ≠ .null) : configdata.given "checkbydefault" = some json :=
    given_eq_some_iff.mpr ⟨h, hnull⟩
  have hsuits {json : Json} (h : configdata.given "checkbydefault" = some json)
      (hjson : (∃ b, json = .bool b) ∨ json.IsIntegerIn 0 1) : configdata.SuitsCheckbox :=
    ⟨fun other hother => Option.some.inj (h.symm.trans hother) ▸ hjson⟩
  unfold checkbox
  split
  · next h => exact iff_of_true rfl (habsent (given_eq_none_iff.mpr (.inl h)))
  · next h => exact iff_of_true rfl (habsent (given_eq_none_iff.mpr (.inr h)))
  · next b h => exact iff_of_true rfl (hsuits (hvalue h Json.noConfusion) (.inl ⟨b, rfl⟩))
  · next h =>
    exact iff_of_true rfl (hsuits (hvalue h Json.noConfusion) (.inr ⟨0, rfl, by decide⟩))
  · next h =>
    exact iff_of_true rfl (hsuits (hvalue h Json.noConfusion) (.inr ⟨1, rfl, by decide⟩))
  · next json hnull hbool hzero hone h =>
    refine iff_of_false (fun he => nomatch he) fun hs => ?_
    obtain ⟨b, hb⟩ | ⟨n, hn, hlow, hhigh⟩ := hs.checkbydefault json (hvalue h hnull)
    · exact hbool b hb
    · obtain rfl | rfl : n = 0 ∨ n = 1 := by omega
      · exact hzero hn
      · exact hone hn

/-- A bound on dates that has been read was given as an integer. -/
theorem isIntegerIn_of_yields {read : Option Int} (h : Yields Json.signed? given read)
    (hrange : ∀ stamp ∈ read, earliestDate ≤ stamp ∧ stamp ≤ latestDate) :
    ∀ json ∈ given, json.IsIntegerIn earliestDate latestDate := by
  intro json hjson
  obtain ⟨stamp, hs, rfl⟩ := h.exists_read hjson
  exact ⟨stamp, (Json.signed?_eq_some_iff.mp hs).1, hrange stamp rfl⟩

/-- The time stamps of all dates fit into 64 bits. -/
theorem exists_yields_signed (h : ∀ json ∈ given, json.IsIntegerIn earliestDate latestDate) :
    ∃ read, Yields Json.signed? given read ∧
      ∀ stamp ∈ read, earliestDate ≤ stamp ∧ stamp ≤ latestDate := by
  have hfits : Int64.minValue.toInt ≤ earliestDate ∧ latestDate ≤ Int64.maxValue.toInt := by decide
  obtain ⟨read, hread⟩ : ∃ read, Yields Json.signed? given read := by
    refine exists_yields fun json hjson => ?_
    obtain ⟨stamp, hs, hlow, hhigh⟩ := h json hjson
    exact ⟨stamp, Json.signed?_eq_some_iff.mpr ⟨hs, by omega⟩⟩
  refine ⟨read, hread, fun stamp hs => ?_⟩
  obtain ⟨json, hjson, hs⟩ := hread.exists_given hs
  obtain ⟨rfl, -⟩ := Json.signed?_eq_some_iff.mp hs
  obtain ⟨_, ⟨⟩, hrange⟩ := h _ hjson
  exact hrange

theorem date_eq_ok_iff : date configdata = .ok () ↔ configdata.SuitsDate := by
  simp only [date, bind_eq_ok_iff, dateBound_eq_ok_iff]
  constructor
  · rintro ⟨min, ⟨hmin, hminRange⟩, max, ⟨hmax, hmaxRange⟩, hordered⟩
    refine ⟨isIntegerIn_of_yields hmin hminRange, isIntegerIn_of_yields hmax hmaxRange,
      fun first last hfirst hlast => ?_⟩
    obtain ⟨_, hfirst, rfl⟩ := hmin.exists_read hfirst
    obtain ⟨_, hlast, rfl⟩ := hmax.exists_read hlast
    cases (Json.signed?_eq_some_iff.mp hfirst).1
    cases (Json.signed?_eq_some_iff.mp hlast).1
    by_contra hlater
    dsimp only at hordered
    rw [if_pos (by omega)] at hordered
    cases hordered
  · intro h
    obtain ⟨min, hmin, hminRange⟩ := exists_yields_signed h.mindate
    obtain ⟨max, hmax, hmaxRange⟩ := exists_yields_signed h.maxdate
    refine ⟨min, ⟨hmin, hminRange⟩, max, ⟨hmax, hmaxRange⟩, ?_⟩
    split
    · next first last =>
      obtain ⟨json, hjson, hfirst⟩ := hmin.exists_given rfl
      obtain ⟨json', hjson', hlast⟩ := hmax.exists_given rfl
      obtain ⟨rfl, -⟩ := Json.signed?_eq_some_iff.mp hfirst
      obtain ⟨rfl, -⟩ := Json.signed?_eq_some_iff.mp hlast
      have hle := h.ordered first last hjson hjson'
      exact if_neg (by omega)
    · rfl

end Rule

/-! ## The built-in types -/

namespace Json.Members

variable {members members' : Json.Members} {tag : String}

/-- Only the values that the type of a tag looks for decide whether a configuration suits it. -/
theorem Suits.congr (hgiven : ∀ name ∈ FieldType.readNames tag, members.given name = members'.given name)
    (h : members.Suits tag) : members'.Suits tag := by
  unfold Suits at h ⊢
  unfold FieldType.readNames at hgiven
  split at h
  · exact ⟨hgiven "checkbydefault" (by decide) ▸ h.checkbydefault⟩
  · exact ⟨hgiven "mindate" (by decide) ▸ h.mindate, hgiven "maxdate" (by decide) ▸ h.maxdate,
      hgiven "mindate" (by decide) ▸ hgiven "maxdate" (by decide) ▸ h.ordered⟩
  · have hoffers (option : String) (h : members.Offers option) : members'.Offers option := by
      unfold Offers at h ⊢
      rwa [hgiven "options" (by decide)] at h
    obtain ⟨option, hoption⟩ := h.options
    refine ⟨⟨option, hoffers option hoption⟩, fun json hjson => ?_⟩
    rw [← hgiven "defaultvalue" (by decide)] at hjson
    obtain ⟨value, hs, hvalue⟩ := h.defaultvalue json hjson
    exact ⟨value, hs, hvalue.imp_right (hoffers value)⟩
  · exact ⟨hgiven "displaysize" (by decide) ▸ h.displaysize,
      hgiven "maxlength" (by decide) ▸ h.maxlength,
      hgiven "defaultvalue" (by decide) ▸ h.defaultvalue,
      hgiven "defaultvalue" (by decide) ▸ hgiven "maxlength" (by decide) ▸ h.fits⟩
  · exact ⟨hgiven "defaultvalue" (by decide) ▸ h.defaultvalue⟩
  · exact h

end Json.Members

namespace Registry

open Json.Members

variable {σ : Type} {tag text : String} {members : Json.Members} {configdata : Option Json}
  {outlook : Outlook} {state : σ}

/-- A built-in type has nothing against the configurations that suit it. -/
theorem check_builtin_eq_ok_iff {type : FieldType σ} (h : Registry.builtin.resolve tag = .ok type)
    (outlook : Outlook) (state : σ) :
    type.check members outlook state = (.ok (), state) ↔ members.Suits tag := by
  obtain rfl := tag_of_resolve h
  have hanswer (rule : Rule) : (rule members, state) = (.ok (), state) ↔ rule members = .ok () :=
    ⟨congrArg Prod.fst, fun h => by rw [h]⟩
  have hmem := mem_builtin_of_resolve h
  simp only [FieldType.builtin, List.mem_cons, List.not_mem_nil, or_false] at hmem
  rcases hmem with rfl | rfl | rfl | rfl | rfl
  · exact (hanswer _).trans Rule.checkbox_eq_ok_iff
  · exact (hanswer _).trans Rule.date_eq_ok_iff
  · exact (hanswer _).trans Rule.select_eq_ok_iff
  · exact (hanswer _).trans Rule.text_eq_ok_iff
  · exact (hanswer _).trans Rule.textarea_eq_ok_iff

/-- The tags of the built-in types are those that some configuration suits. -/
theorem mem_tags_of_suits (h : members.Suits tag) : tag ∈ (Registry.builtin (σ := σ)).tags := by
  show tag ∈ ["checkbox", "date", "select", "text", "textarea"]
  unfold Suits at h
  split at h
  iterate 5 decide
  exact h.elim

/-- The built-in types prepare the objects that suit them. -/
theorem prepare_builtin_eq_ok_iff :
    Registry.builtin.prepare tag configdata outlook state = (.ok text, state) ↔
      ∃ members : Json.Members, configdata.getD (.object []) = .object members ∧
        members.Suits tag ∧ (Json.object members).render = text := by
  rw [prepare_eq_ok_iff]
  constructor
  · rintro ⟨type, members, hresolve, hobject, hcheck, hrender⟩
    exact ⟨members, hobject, (check_builtin_eq_ok_iff hresolve outlook state).mp hcheck, hrender⟩
  · rintro ⟨members, hobject, hsuits, hrender⟩
    obtain ⟨type, hresolve⟩ := exists_resolve_of_mem_tags (mem_tags_of_suits (σ := σ) hsuits)
    exact ⟨type, members, hresolve, hobject,
      (check_builtin_eq_ok_iff hresolve outlook state).mpr hsuits, hrender⟩

/-- What preparing a configuration for a built-in type leads to. A missing configuration counts as
the empty object. Nothing is prepared under other tags; an object that suits its type is prepared as
its text; every other value is refused as invalid. Two objects with the same values under the names
that the type looks for are both prepared or both refused. -/
theorem prepare_builtin_outcomes (tag : String) (configdata : Option Json) (outlook : Outlook)
    (state : σ) :
    let prepared := Registry.builtin.prepare tag configdata outlook state
    let suits := ∃ members : Json.Members,
      configdata.getD (.object []) = .object members ∧ members.Suits tag
    (prepared = (.error (.unknownFieldType tag), state) ↔
        tag ∉ ["checkbox", "date", "select", "text", "textarea"]) ∧
      (prepared = (.ok (configdata.getD (.object [])).render, state) ↔ suits) ∧
      (tag ∈ ["checkbox", "date", "select", "text", "textarea"] → ¬ suits →
        ∃ message, prepared = (.error (FieldType.invalid tag message), state)) ∧
      ∀ members members' : Json.Members,
        (∀ name ∈ FieldType.readNames tag, members.given name = members'.given name) →
          let prepares (configdata : Json.Members) := ∃ text, Registry.builtin.prepare tag
            (some (.object configdata)) outlook state = (.ok text, state)
          (prepares members ↔ prepares members') := by
  intro prepared suits
  have hok : prepared = (.ok (configdata.getD (.object [])).render, state) ↔ suits := by
    refine prepare_builtin_eq_ok_iff.trans (exists_congr fun members => and_congr_right fun h => ?_)
    exact and_iff_left (h ▸ rfl)
  have hrefused (htag : tag ∈ (Registry.builtin (σ := σ)).tags) (h : ¬ suits) :
      ∃ message, prepared = (.error (FieldType.invalid tag message), state) := by
    obtain ⟨message, hprepare⟩ := prepare_builtin_of_not_accepts htag fun haccepts =>
      h (hok.mp (haccepts.prepare outlook state))
    exact ⟨message, hprepare outlook state⟩
  refine ⟨⟨fun h htag => ?_, fun h => prepare_of_not_mem_tags h outlook state⟩, hok, hrefused,
    fun members members' hgiven => ?_⟩
  · by_cases hs : suits
    · cases h.symm.trans (hok.mpr hs)
    · obtain ⟨message, hm⟩ := hrefused htag hs
      cases h.symm.trans hm
  · have hprepares {configdata : Json.Members} : (∃ text, Registry.builtin.prepare tag
        (some (.object configdata)) outlook state = (.ok text, state)) ↔ configdata.Suits tag := by
      simp only [prepare_builtin_eq_ok_iff, Option.getD_some, Json.object.injEq]
      exact ⟨fun ⟨_, _, he, hs, _⟩ => he ▸ hs, fun hs => ⟨_, _, rfl, hs, rfl⟩⟩
    intro prepares
    refine hprepares.trans (Iff.trans ⟨Suits.congr hgiven, Suits.congr ?_⟩ hprepares.symm)
    exact fun name hname => (hgiven name hname).symm

/-- Four characters fit into a length of four, however many bytes they take, and a further value makes
no difference. Dates that run backwards are refused. -/
theorem prepare_builtin_outcomes_sample :
    let outlook : Outlook := ⟨fun _ => .ok 0⟩
    let word : Json.Members := [("defaultvalue", .string "déjà"), ("maxlength", .integer 4)]
    let noted : Json.Members := ("a", .double (.zero true)) :: word
    let backwards : Json.Members := [("maxdate", .integer 4), ("mindate", .integer 5)]
    Registry.builtin.prepare "number" none outlook () =
        (.error (.unknownFieldType "number"), ()) ∧
      Registry.builtin.prepare "text" (some (.object word)) outlook () =
        (.ok (Json.object word).render, ()) ∧
      (∃ text, Registry.builtin.prepare "text" (some (.object noted)) outlook () =
        (.ok text, ())) ∧
      ∃ message, Registry.builtin.prepare "date" (some (.object backwards)) outlook () =
        (.error (FieldType.invalid "date" message), ()) := by
  intro outlook word noted backwards
  have hword := (prepare_builtin_outcomes "text" (some (.object word)) outlook ()).2.1.mpr
    ⟨word, rfl, Rule.text_eq_ok_iff.mp rfl⟩
  have hnoted : ∀ name ∈ FieldType.readNames "text", word.given name = noted.given name := by
    show ∀ name ∈ ["displaysize", "maxlength", "defaultvalue"], word.given name = noted.given name
    simp only [List.forall_mem_cons]
    exact ⟨rfl, rfl, rfl, List.forall_mem_nil _⟩
  have hbackwards : ¬ ∃ members : Json.Members,
      Json.object backwards = .object members ∧ members.Suits "date" := by
    rintro ⟨_, ⟨⟩, hsuits⟩
    exact absurd (hsuits.ordered 5 4 rfl rfl) (by decide)
  refine ⟨?_, hword, ?_, ?_⟩
  · exact (prepare_builtin_outcomes "number" none outlook ()).1.mpr (by decide)
  · exact ((prepare_builtin_outcomes "text" none outlook ()).2.2.2 word noted hnoted).mp ⟨_, hword⟩
  · exact (prepare_builtin_outcomes "date" (some (.object backwards)) outlook ()).2.2.1 (by decide)
      hbackwards

end Registry

end FieldCatalog
