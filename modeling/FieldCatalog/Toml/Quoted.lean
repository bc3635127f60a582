import FieldCatalog.Text.Hex

/-!
# TOML strings

A string stands between quotation marks, where escapes are read, or between apostrophes, where none
are. Three marks instead of one open a string of several lines.

## Main definitions

* `Toml.Reader`: reads something off the front of a text
* `Toml.isText`: the characters that may stand in comments and strings
* `Toml.newline`: a line feed, or a carriage return and a line feed
* `Toml.quotedString`: a string of any of the four forms
-/

namespace FieldCatalog.Toml

/-- Reads something off the front of a text and returns the rest. -/
abbrev Reader (α : Type) := List Char → Option (α × List Char)

/-- The characters that may stand in comments and strings: all but the control characters other than
the tabulator. -/
def isText (c : Char) : Bool :=
  c == '\t' || (0x20 ≤ c.toNat && c.toNat ≠ 0x7F)

/-- The rest of a text after the end of a line. -/
def newline : List Char → Option (List Char)
  | '\n' :: cs => some cs
  | '\r' :: '\n' :: cs => some cs
  | _ => none

/-- The character of a code point, unless it is a surrogate or too large. -/
def charOf (n : Nat) : Option Char :=
  if n < 0xD800 ∨ (0xE000 ≤ n ∧ n < 0x110000) then some (Char.ofNat n) else none

/-- An escape of the given number of hexadecimal digits. -/
def numbered (count : Nat) (cs : List Char) : Option (Char × Nat) := do
  let digits := cs.take count
  if digits.length = count then some (← charOf (← Text.hexNumber? digits), count + 1) else none

/-- The character that an escape stands for, given the text after its backslash, and how many
characters of that text belong to it. -/
def escaped : List Char → Option (Char × Nat)
  | 'b' :: _ => some ('\x08', 1)
  | 't' :: _ => some ('\t', 1)
  | 'n' :: _ => some ('\n', 1)
  | 'f' :: _ => some ('\x0c', 1)
  | 'r' :: _ => some ('\r', 1)
  | 'e' :: _ => some ('\x1b', 1)
  | '"' :: _ => some ('"', 1)
  | '\\' :: _ => some ('\\', 1)
  | 'x' :: cs => numbered 2 cs
  | 'u' :: cs => numbered 4 cs
  | 'U' :: cs => numbered 8 cs
  | _ => none

/-- The blanks and line ends at the front of a text, counted; none of them may be a lone carriage
return. -/
def blankRun : List Char → Nat
  | ' ' :: cs | '\t' :: cs | '\n' :: cs => blankRun cs + 1
  | '\r' :: '\n' :: cs => blankRun cs + 2
  | _ => 0

/-- After the backslash at the end of a line: how many blanks up to the next text are left out. -/
def lineContinuation (cs : List Char) : Option Nat :=
  match newline (cs.dropWhile fun c => c == ' ' || c == '\t') with
  | some _ => some (blankRun cs)
  | none => none

/-- The characters of a string on one line, up to the closing mark. -/
def oneLine (escapes : Bool) (mark : Char) : Reader (List Char)
  | [] => none
  | c :: cs =>
    if c = mark then some ([], cs)
    else if c = '\\' ∧ escapes then do
      let (d, used) ← escaped cs
      let (text, rest) ← oneLine escapes mark (cs.drop used)
      some (d :: text, rest)
    else if isText c then do
      let (text, rest) ← oneLine escapes mark cs
      some (c :: text, rest)
    else none
termination_by cs => cs.length
decreasing_by
  all_goals simp only [List.length_drop, List.length_cons]
  all_goals omega

/-- The marks at the end of a string of several lines: three close it, and up to two more before
them belong to the string. -/
def closing (mark : Char) (cs : List Char) : Reader (List Char) := fun rest =>
  match cs with
  | a :: b :: _ =>
    if a = mark ∧ b = mark then
      let extra := ((rest.drop 2).take 2).takeWhile (· == mark)
      some (extra, (rest.drop 2).drop extra.length)
    else none
  | _ => none

/-- The characters of a string of several lines, up to the closing marks. -/
def manyLines (escapes : Bool) (mark : Char) : Reader (List Char)
  | [] => none
  | c :: cs =>
    match (if c = mark then closing mark cs cs else none) with
    | some (extra, rest) => some (extra, rest)
    | none =>
      if c = '\\' ∧ escapes then
        match lineContinuation cs with
        | some blanks => manyLines escapes mark (cs.drop blanks)
        | none => do
          let (d, used) ← escaped cs
          let (text, rest) ← manyLines escapes mark (cs.drop used)
          some (d :: text, rest)
      else if isText c ∨ c = '\n' ∨ (c = '\r' ∧ cs.head? = some '\n') then do
        let (text, rest) ← manyLines escapes mark cs
        some (c :: text, rest)
      else none
termination_by cs => cs.length
decreasing_by
  all_goals simp only [List.length_drop, List.length_cons]
  all_goals omega

/-- A string that opens with the given mark, given the text after the mark. A line end right after
three opening marks does not belong to the string. -/
def afterMark (escapes : Bool) (mark : Char) : Reader String := fun cs =>
  match cs with
  | a :: b :: rest =>
    if a = mark ∧ b = mark then do
      let (text, rest) ← manyLines escapes mark ((newline rest).getD rest)
      some (String.ofList text, rest)
    else do
      let (text, rest) ← oneLine escapes mark cs
      some (String.ofList text, rest)
  | _ => do
    let (text, rest) ← oneLine escapes mark cs
    some (String.ofList text, rest)

/-- A string of any of the four forms. -/
def quotedString : Reader String
  | '"' :: cs => afterMark true '"' cs
  | '\'' :: cs => afterMark false '\'' cs
  | _ => none

end FieldCatalog.Toml
