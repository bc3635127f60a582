import FieldCatalog.FieldType.Builtin
import FieldCatalog.Proofs.Text.Trimmed

/-!
# The options of a select field

Options are entered one per line, with blanks around them and blank lines between them. What a select
field offers is a normal form of what has been entered: written down line by line it is read as the same
options, and nothing else that the type looks at depends on how the options were spelled.

## Main definitions

* `Select.tidied`: a configuration with its options written down line by line

## Main results

* `Text.lines_intercalate`: lines that are joined are cut apart again
* `Text.entries_intercalate`: entries that are joined are the entries of the text
* `Select.options_normal`: the options of a configuration are its normal form
-/

namespace FieldCatalog

/-! ## Lines and entries -/

namespace Text

/-- A text is cut at each line feed. -/
theorem lines_eq_splitOn (cs : List Char) : lines cs = cs.splitOn '\n' := by
  rw [List.splitOn_eq_splitOnP]
  induction cs with
  | nil => rfl
  | cons c cs ih =>
    rw [List.splitOnP_cons_eq_if_modifyHead, lines, ← ih]
    simp only [beq_iff_eq]
    split
    · rfl
    · obtain ⟨line, rest, hlines⟩ := List.exists_cons_of_ne_nil (lines_ne_nil cs)
      rw [hlines]
      rfl

/-- Lines that are joined are cut apart again. -/
theorem lines_intercalate {ls : List (List Char)} (hls : ls ≠ []) (h : ∀ line ∈ ls, '\n' ∉ line) :
    lines (['\n'].intercalate ls) = ls := by
  rw [lines_eq_splitOn, List.splitOn_intercalate '\n' h hls]

theorem not_mem_of_mem_lines {cs line : List Char} (h : line ∈ lines cs) : '\n' ∉ line := by
  induction cs generalizing line with
  | nil =>
    rw [lines, List.mem_singleton] at h
    exact h ▸ List.not_mem_nil
  | cons c cs ih =>
    unfold lines at h
    split at h
    · rcases List.mem_cons.mp h with rfl | h
      · exact List.not_mem_nil
      · exact ih h
    · next hc =>
      -- The character goes to the front of the first line.
      split at h
      · rw [List.mem_singleton.mp h, List.mem_singleton]
        exact Ne.symm hc
      · next first rest hlines =>
        rcases List.mem_cons.mp h with rfl | h
        · rw [List.mem_cons, not_or]
          exact ⟨Ne.symm hc, ih (hlines ▸ List.mem_cons_self)⟩
        · exact ih (hlines ▸ List.mem_cons_of_mem first h)

theorem trimChars_sublist (cs : List Char) : (trimChars cs).Sublist cs := by
  have hback := (List.dropWhile_sublist isBlank (l := (cs.dropWhile isBlank).reverse)).reverse
  rw [List.reverse_reverse] at hback
  exact hback.trans (List.dropWhile_sublist isBlank)

theorem dropWhile_isBlank_eq_self {cs : List Char} (h : ∀ c ∈ cs.head?, isBlank c = false) :
    cs.dropWhile isBlank = cs := by
  cases cs with
  | nil => rfl
  | cons c cs => exact List.dropWhile_cons_of_neg (by rw [h c rfl]; exact Bool.false_ne_true)

/-- Nothing is left to trim of a trimmed text. -/
theorem trimChars_of_isTrimmed {s : String} (h : IsTrimmed s) : trimChars s.toList = s.toList := by
  obtain ⟨-, hhead, hlast⟩ := h
  rw [← List.head?_reverse] at hlast
  rw [trimChars, dropWhile_isBlank_eq_self hhead, dropWhile_isBlank_eq_self hlast,
    List.reverse_reverse]

/-- An entry is trimmed and stands on one line. -/
theorem isTrimmed_of_mem_entries {cs entry : List Char} (h : entry ∈ entries cs) :
    IsTrimmed (String.ofList entry) ∧ '\n' ∉ entry := by
  obtain ⟨hmem, hne⟩ := List.mem_filter.mp h
  obtain ⟨line, hline, rfl⟩ := List.mem_map.mp hmem
  have htrim : String.ofList (trimChars line) = trim (String.ofList line) := by
    rw [trim, String.toList_ofList]
  refine ⟨?_, fun hfeed => not_mem_of_mem_lines hline ((trimChars_sublist line).subset hfeed)⟩
  rw [htrim]
  refine isTrimmed_trim fun hempty => ?_
  rw [← String.toList_eq_nil_iff, toList_trim, String.toList_ofList] at hempty
  rw [hempty] at hne
  cases hne

/-- Entries that are joined are the entries of the text. -/
theorem entries_intercalate {es : List String} (h : ∀ e ∈ es, IsTrimmed e ∧ '\n' ∉ e.toList) :
    entries ("\n".intercalate es).toList = es.map String.toList := by
  have htoList : ("\n".intercalate es).toList = ['\n'].intercalate (es.map String.toList) :=
    String.toList_intercalate
  rw [htoList]
  rcases eq_or_ne es [] with rfl | hne
  · -- The empty text has a line, which is blank.
    rfl
  have hlines : lines (['\n'].intercalate (es.map String.toList)) = es.map String.toList := by
    refine lines_intercalate (mt List.map_eq_nil_iff.mp hne) fun line hline => ?_
    obtain ⟨e, he, rfl⟩ := List.mem_map.mp hline
    exact (h e he).2
  have htrim : (es.map String.toList).map trimChars = es.map String.toList := by
    rw [List.map_map]
    exact List.map_congr_left fun e he => trimChars_of_isTrimmed (h e he).1
  rw [entries, hlines, htrim, List.filter_eq_self]
  intro line hline
  obtain ⟨e, he, rfl⟩ := List.mem_map.mp hline
  rw [Bool.not_eq_true', List.isEmpty_eq_false_iff]
  exact mt String.toList_eq_nil_iff.mp (h e he).1.1

end Text

/-! ## Members -/

namespace Json

variable {name other : String} {json : Json} {members : Members}

@[simp] theorem lookup_put_self (name : String) (json : Json) (members : Members) :
    (put name json members).lookup name = some json := by
  induction members with
  | nil => simp [put]
  | cons first rest ih =>
    rw [put]
    split
    · simp
    · next hne =>
      split
      · simp
      · rw [List.lookup_cons, beq_eq_false_iff_ne.mpr hne]
        exact ih

theorem lookup_put_of_ne (hne : other ≠ name) :
    (put name json members).lookup other = members.lookup other := by
  have hname : (other == name) = false := beq_eq_false_iff_ne.mpr hne
  induction members with
  | nil => rw [put, List.lookup_cons, hname]
  | cons first rest ih =>
    rw [put]
    split
    · next he => rw [List.lookup_cons, List.lookup_cons, hname, ← he, hname]
    · split
      · rw [List.lookup_cons, hname]
      · rw [List.lookup_cons, List.lookup_cons, ih]

end Json

/-! ## Options -/

namespace Select

variable {configdata : Json.Members}

theorem options_of_lookup {text : String} (h : configdata.lookup "options" = some (.string text)) :
    options configdata = (Text.entries text.toList).map String.ofList := by
  rw [options, h]

/-- An option is trimmed and stands on one line. -/
theorem isTrimmed_of_mem_options {option : String} (h : option ∈ options configdata) :
    Text.IsTrimmed option ∧ '\n' ∉ option.toList := by
  unfold options at h
  split at h
  · obtain ⟨entry, hentry, rfl⟩ := List.mem_map.mp h
    rw [String.toList_ofList]
    exact Text.isTrimmed_of_mem_entries hentry
  · cases h

/-- The configuration with its options written down line by line. -/
def tidied (configdata : Json.Members) : Json.Members :=
  Json.put "options" (.string ("\n".intercalate (options configdata))) configdata

theorem options_tidied (configdata : Json.Members) :
    options (tidied configdata) = options configdata := by
  have hlookup : (tidied configdata).lookup "options" =
      some (.string ("\n".intercalate (options configdata))) := Json.lookup_put_self ..
  rw [options_of_lookup hlookup,
    Text.entries_intercalate fun _ => isTrimmed_of_mem_options, List.map_map]
  exact (List.map_congr_left fun option _ => String.ofList_toList).trans (List.map_id _)

/-- The rule looks at the options and at the default value, however the options are spelled. -/
theorem select_congr {configdata' : Json.Members} {text text' : String}
    (htext : configdata.lookup "options" = some (.string text))
    (htext' : configdata'.lookup "options" = some (.string text'))
    (hdefault : configdata.lookup "defaultvalue" = configdata'.lookup "defaultvalue")
    (hoptions : options configdata = options configdata') :
    Rule.select configdata = Rule.select configdata' := by
  simp only [Rule.select, FieldType.optionalString, htext, htext', hdefault, hoptions]
  rfl

/-- The options of a configuration are its normal form: each is trimmed, not empty and on one line,
and written down line by line they are read as the same options. Whether the options were spelled in
this way or in another, the rule answers the same. -/
theorem options_normal (configdata : Json.Members) :
    (∀ option ∈ options configdata, Text.IsTrimmed option ∧ '\n' ∉ option.toList) ∧
      options (tidied configdata) = options configdata ∧
      ∀ text, configdata.lookup "options" = some (.string text) →
        Rule.select (tidied configdata) = Rule.select configdata := by
  refine ⟨fun option => isTrimmed_of_mem_options, options_tidied configdata, fun text htext => ?_⟩
  exact select_congr (Json.lookup_put_self ..) htext (Json.lookup_put_of_ne (by decide))
    (options_tidied configdata)

theorem options_normal_sample :
    let configdata : Json.Members :=
      [("defaultvalue", .string "b\rc"), ("options", .string " a\t\r\n \u2003\n\n b\rc \n")]
    options configdata = ["a", "b\rc"] ∧
      tidied configdata = [("defaultvalue", .string "b\rc"), ("options", .string "a\nb\rc")] ∧
      Rule.select configdata = .ok () ∧ Rule.select (tidied configdata) = .ok () := by
  intro configdata
  have hoptions : options configdata = ["a", "b\rc"] := by decide
  have hselect : Rule.select configdata = .ok () := by decide
  refine ⟨hoptions, ?_, hselect, ?_⟩
  · rw [tidied, hoptions]
    rfl
  · rw [(options_normal configdata).2.2 _ rfl, hselect]

end Select

end FieldCatalog
