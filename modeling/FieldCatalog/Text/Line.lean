import FieldCatalog.Text.Blank

/-!
# Lines

A line feed ends a line and nothing else does.

## Main definitions

* `lines`: the pieces between the line feeds of a text
* `entries`: the trimmed lines of a text that are not blank
-/

namespace FieldCatalog.Text

/-- The pieces between line feeds; a text without one is a single line. -/
def lines : List Char → List (List Char)
  | [] => [[]]
  | c :: cs =>
    if c = '\n' then [] :: lines cs
    else match lines cs with
      | [] => [[c]]
      | line :: rest => (c :: line) :: rest

/-- The lines of a text, each without the blanks around it, the blank ones left out. -/
def entries (cs : List Char) : List (List Char) :=
  ((lines cs).map trimChars).filter fun line => !line.isEmpty

theorem lines_ne_nil (cs : List Char) : lines cs ≠ [] := by
  cases cs with
  | nil => simp [lines]
  | cons c cs =>
    unfold lines
    split
    · simp
    · split <;> simp

end FieldCatalog.Text
