import FieldCatalog.Toml.Moment
import FieldCatalog.Toml.Number
import FieldCatalog.Toml.Quoted

/-!
# Reading TOML

A document is a sequence of lines with headers and pairs; values may stretch over several lines. A
text is either read as a whole or refused.

## Main definitions

* `Toml.value`: a value within a nesting limit
* `Toml.Statement`: a header or a pair
* `Toml.statements`: the statements of a text
* `Toml.assemble`: the document that statements describe
* `Toml.parse`: the entries of a document
-/

namespace FieldCatalog.Toml

/-- A text without the blanks at its front. -/
def skipBlanks (cs : List Char) : List Char :=
  cs.dropWhile fun c => c == ' ' || c == '\t'

/-- The rest of a text after a comment, if one starts there: its line end is still to come. -/
def skipComment (cs : List Char) : Option (List Char) :=
  match cs with
  | '#' :: cs =>
    let rest := cs.dropWhile isText
    if rest.isEmpty || (newline rest).isSome then some rest else none
  | cs => some cs

/-- The rest of a text after blanks, comments and line ends. The budget bounds the number of
lines. -/
def skipLines : Nat → List Char → Option (List Char)
  | 0, cs => some cs
  | budget + 1, cs => do
    let cs ← skipComment (skipBlanks cs)
    match newline cs with
    | some rest => skipLines budget rest
    | none => some cs

/-- The rest of a text after what may separate the parts of a value. -/
def skipSpace (cs : List Char) : Option (List Char) :=
  skipLines (cs.length + 1) cs

/-- How many steps a key may have, and how many brackets and braces may lie inside each other. -/
def depthLimit : Nat := 80

/-! ## Keys -/

/-- The characters of a key without quotation marks. -/
def isBare (c : Char) : Bool :=
  c.isAlphanum || c == '_' || c == '-'

/-- One step of a key: a bare word, or a string on one line. -/
def keyStep : Reader String := fun cs =>
  match cs with
  | '"' :: rest => do
    let (text, rest) ← oneLine true '"' rest
    some (String.ofList text, rest)
  | '\'' :: rest => do
    let (text, rest) ← oneLine false '\'' rest
    some (String.ofList text, rest)
  | cs =>
    let word := cs.takeWhile isBare
    if word.isEmpty then none else some (String.ofList word, cs.dropWhile isBare)

/-- A key with at most the given number of steps. -/
def keySteps : Nat → Reader (List String)
  | 0, _ => none
  | more + 1, cs => do
    let (step, rest) ← keyStep (skipBlanks cs)
    match skipBlanks rest with
    | '.' :: rest =>
      let (steps, rest) ← keySteps more rest
      some (step :: steps, rest)
    | rest => some ([step], rest)

/-- A key of one or several steps with dots between them. -/
def key : Reader (List String) :=
  keySteps depthLimit

/-! ## Values -/

/-- The characters of values without quotation marks and brackets. -/
def isAtom (c : Char) : Bool :=
  c.isAlphanum || c == '_' || c == '-' || c == '+' || c == '.' || c == ':'

/-- The value of a word: a truth value, a number or a moment. -/
def word? (cs : List Char) : Option Toml :=
  if cs = "true".toList then some (.boolean true)
  else if cs = "false".toList then some (.boolean false)
  else
    ((integer? cs).map .integer <|> float? cs) <|> (moment? cs).map .moment

/-- A word at the front of a text. A date may have its time after a single blank. -/
def word : Reader Toml := fun cs =>
  let front := cs.takeWhile isAtom
  let rest := cs.dropWhile isAtom
  match date front, rest with
  | some (_, []), ' ' :: after =>
    if (after.head?.any Char.isDigit) then do
      some (← word? (front ++ ' ' :: after.takeWhile isAtom), after.dropWhile isAtom)
    else do some (← word? front, rest)
  -- Colons and dots belong to words, so a date and time with a `T` is a single word.
  | _, _ => do some (← word? front, rest)

/-- The items of an array up to its closing bracket. A comma may stand after the last one. -/
def items (item : Reader Toml) : Nat → Reader (List Toml)
  | 0, _ => none
  | budget + 1, cs => do
    match ← skipSpace cs with
    | ']' :: rest => some ([], rest)
    | cs =>
      let (value, rest) ← item cs
      match ← skipSpace rest with
      | ']' :: rest => some ([value], rest)
      | ',' :: rest =>
        let (values, rest) ← items item budget rest
        some (value :: values, rest)
      | _ => none

/-- A key, an equals sign and a value. What may stand on both sides of the sign depends on where the
pair stands, so the function that skips it is given. -/
def pair (skip : List Char → Option (List Char)) (item : Reader Toml) :
    Reader (List String × Toml) := fun cs => do
  let (steps, rest) ← key cs
  match ← skip rest with
  | '=' :: rest =>
    let (value, rest) ← item (← skip rest)
    some ((steps, value), rest)
  | _ => none

/-- The pairs of a table within braces, where line ends and comments may stand around an equals
sign. A comma may stand after the last pair. -/
def pairs (item : Reader Toml) : Nat → Entries → Reader Entries
  | 0, _, _ => none
  | budget + 1, entries, cs => do
    match ← skipSpace cs with
    | '\x7d' :: rest => some (entries, rest)
    | cs =>
      let ((steps, value), rest) ← pair skipSpace item cs
      let entries ← addPair value steps entries
      match ← skipSpace rest with
      | '\x7d' :: rest => some (entries, rest)
      | ',' :: rest => pairs item budget entries rest
      | _ => none

/-- A value at the very front of a text, with at most the given number of brackets and braces inside
each other. -/
def value : Nat → Reader Toml
  | nesting, cs =>
    match cs, nesting with
    | '[' :: rest, nesting + 1 => do
      let (values, rest) ← items (value nesting) (rest.length + 1) rest
      some (.array false values, rest)
    | '\x7b' :: rest, nesting + 1 => do
      let (entries, rest) ← pairs (value nesting) (rest.length + 1) [] rest
      some (.table .braces entries, rest)
    | '"' :: _, _ | '\'' :: _, _ => do
      let (text, rest) ← quotedString cs
      some (.string text, rest)
    | _, _ => word cs

/-! ## Documents -/

/-- A header or a pair. -/
inductive Statement
  | tableHeader (path : List String) (key : String)
  | entryHeader (path : List String) (key : String)
  | pair (steps : List String) (value : Toml)
deriving Repr

/-- The last step of a key and the steps before it. -/
def lastStep (steps : List String) : Option (List String × String) :=
  steps.getLast?.map fun last => (steps.dropLast, last)

/-- A header or a pair at the front of a line. A pair has its key and the start of its value on one
line. -/
def statement : Reader Statement := fun cs =>
  match cs with
  | '[' :: '[' :: rest => do
    let (steps, rest) ← key rest
    let (path, last) ← lastStep steps
    match rest with
    | ']' :: ']' :: rest => some (.entryHeader path last, rest)
    | _ => none
  | '[' :: rest => do
    let (steps, rest) ← key rest
    let (path, last) ← lastStep steps
    match rest with
    | ']' :: rest => some (.tableHeader path last, rest)
    | _ => none
  | cs => do
    let ((steps, value), rest) ← pair (some ∘ skipBlanks) (value depthLimit) cs
    some (.pair steps value, rest)

/-- The statements of a text, each on its own lines. The budget bounds their number. -/
def statements : Nat → List Char → Option (List Statement)
  | 0, _ => none
  | budget + 1, cs => do
    match ← skipSpace cs with
    | [] => some []
    | cs =>
      let (first, rest) ← statement cs
      let rest ← skipComment (skipBlanks rest)
      match rest with
      | [] => some [first]
      | _ :: _ =>
        let rest ← newline rest
        let more ← statements budget rest
        some (first :: more)

/-- The entries of a document under construction, and the header that pairs belong to. -/
structure Document where
  entries : Entries
  header : List String
deriving Repr

/-- What one statement does to a document. -/
def Document.add (d : Document) : Statement → Option Document
  | .tableHeader path key => do
    some ⟨← alongHeader (openTable key) path d.entries, path ++ [key]⟩
  | .entryHeader path key => do
    some ⟨← alongHeader (openEntry key) path d.entries, path ++ [key]⟩
  | .pair steps value => do
    some { d with entries := ← alongHeader (addPair value steps) d.header d.entries }

/-- The document that statements describe, none when they contradict each other. -/
def assemble (statements : List Statement) : Option Entries :=
  (statements.foldlM Document.add ⟨[], []⟩).map Document.entries

/-- The entries of a document. A byte order mark at its front does not count. -/
def parse (text : String) : Option Entries :=
  let cs := match text.toList with
    | '\uFEFF' :: cs => cs
    | cs => cs
  (statements (cs.length + 1) cs).bind assemble

end FieldCatalog.Toml
