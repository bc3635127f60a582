import FieldCatalog.Json.Literal
import FieldCatalog.Text.Hex

/-!
# Reading JSON

A strict reader of JSON text. It tells a text that ends too early from one that is wrong at some
character, and refuses containers nested deeper than a limit. The nesting left is what the
recursion runs on; the length of the text bounds the loop over the items of one container.

## Main definitions

* `Json.Fault`: why a text is refused
* `Json.Reader`: reads a value off the front of a text
* `Json.sequence`: the items of a container, up to its closing bracket
* `Json.value`: a value within a nesting limit
* `Json.parse`: a whole text
-/

namespace FieldCatalog.Json

/-- Why a text is refused: it ends too early, it breaks the grammar or a limit, or it is well formed
but does not describe what was asked for. -/
inductive Fault
  | incomplete
  | malformed
  | mismatch
deriving DecidableEq, Repr, Inhabited

/-- Reads something off the front of a text and returns the rest. -/
abbrev Reader (α : Type) := List Char → Except Fault (α × List Char)

/-- The blanks between the tokens of a text. -/
def isSpace (c : Char) : Bool :=
  c == ' ' || c == '\t' || c == '\n' || c == '\r'

/-- A text without the blanks at its front. -/
def skipSpace (cs : List Char) : List Char :=
  cs.dropWhile isSpace

/-- The rest of a text after the given characters. -/
def keyword : List Char → List Char → Except Fault (List Char)
  | [], cs => .ok cs
  | _ :: _, [] => .error .incomplete
  | w :: ws, c :: cs => if c = w then keyword ws cs else .error .malformed

/-! ## Strings -/

/-- The code unit written by four hexadecimal digits at the front of a text. A text with fewer than
four bytes left ends too early. -/
def codeUnit (cs : List Char) : Except Fault Nat :=
  if (String.ofList (cs.take 4)).utf8ByteSize < 4 then .error .incomplete
  else match cs with
    | a :: b :: c :: d :: _ =>
      match Text.hexNumber? [a, b, c, d] with
      | some unit => .ok unit
      | none => .error .malformed
    | _ => .error .malformed

/-- The rest of a surrogate pair whose first half is `high`: a backslash, a `u` and the low half. -/
def lowSurrogate (high : Nat) (cs : List Char) : Except Fault Char := do
  let cs ← keyword ['\\', 'u'] cs
  let low ← codeUnit cs
  if 0xDC00 ≤ low ∧ low ≤ 0xDFFF then
    .ok (Char.ofNat (0x10000 + (high - 0xD800) * 0x400 + (low - 0xDC00)))
  else .error .malformed

/-- The character that an escape stands for, given the text after its backslash, and how many
characters of that text belong to it. -/
def escaped : List Char → Except Fault (Char × Nat)
  | [] => .error .incomplete
  | 'u' :: cs => do
    let unit ← codeUnit cs
    if 0xDC00 ≤ unit ∧ unit ≤ 0xDFFF then .error .malformed
    else if 0xD800 ≤ unit ∧ unit ≤ 0xDBFF then
      -- The two halves take five and six characters behind the first backslash.
      let c ← lowSurrogate unit (cs.drop 4)
      .ok (c, 11)
    else .ok (Char.ofNat unit, 5)
  | '"' :: _ => .ok ('"', 1)
  | '\\' :: _ => .ok ('\\', 1)
  | '/' :: _ => .ok ('/', 1)
  | 'b' :: _ => .ok ('\x08', 1)
  | 'f' :: _ => .ok ('\x0c', 1)
  | 'n' :: _ => .ok ('\n', 1)
  | 'r' :: _ => .ok ('\r', 1)
  | 't' :: _ => .ok ('\t', 1)
  | _ :: _ => .error .malformed

/-- The characters of a string up to its closing quotation mark, given the text after the opening
one. -/
def stringChars : Reader (List Char)
  | [] => .error .incomplete
  | '"' :: cs => .ok ([], cs)
  | '\\' :: cs => do
    let (c, used) ← escaped cs
    let (text, rest) ← stringChars (cs.drop used)
    .ok (c :: text, rest)
  | c :: cs =>
    if c.toNat < 0x20 then .error .malformed
    else do
      let (text, rest) ← stringChars cs
      .ok (c :: text, rest)
termination_by cs => cs.length
decreasing_by
  all_goals simp only [List.length_drop, List.length_cons]
  all_goals omega

/-- A string, given the text after its opening quotation mark. -/
def stringBody : Reader String := fun cs => do
  let (text, rest) ← stringChars cs
  .ok (String.ofList text, rest)

/-! ## Numbers -/

/-- The digits at the front of a text, and the rest. -/
def digitRun (cs : List Char) : List Nat × List Char :=
  ((cs.takeWhile Char.isDigit).map fun c => c.toNat - '0'.toNat, cs.dropWhile Char.isDigit)

/-- A run of at least one digit. -/
def someDigits : Reader (List Nat) := fun cs =>
  match cs with
  | [] => .error .incomplete
  | c :: _ => if c.isDigit then .ok (digitRun cs) else .error .malformed

/-- The digits before the point: a lone zero, or digits of which the first is not zero. -/
def wholePart : Reader (List Nat) := fun cs => do
  let (ds, rest) ← someDigits cs
  match ds with
  | 0 :: _ :: _ => .error .malformed
  | ds => .ok (ds, rest)

/-- A point and at least one digit after it, if there is a point. -/
def fractionPart : Reader (Option (List Nat))
  | '.' :: cs => do
    let (ds, rest) ← someDigits cs
    .ok (some ds, rest)
  | cs => .ok (none, cs)

/-- The sign of an exponent: a minus sign, a plus sign or nothing. -/
def exponentSign : List Char → Bool × List Char
  | '-' :: cs => (true, cs)
  | '+' :: cs => (false, cs)
  | cs => (false, cs)

/-- An exponent, if the letter for it stands there. -/
def exponentPart (cs : List Char) : Except Fault (Option Int × List Char) :=
  match cs with
  | c :: rest =>
    if c = 'e' ∨ c = 'E' then do
      let (negative, rest) := exponentSign rest
      let (ds, rest) ← someDigits rest
      let magnitude : Nat := ds.foldl (fun value d => 10 * value + d) 0
      .ok (some (if negative then -(magnitude : Int) else magnitude), rest)
    else .ok (none, cs)
  | [] => .ok (none, [])

/-- A number whose minus sign, if any, has been read. -/
def number (negative : Bool) : Reader Json := fun cs => do
  let (whole, cs) ← wholePart cs
  let (fraction, cs) ← fractionPart cs
  let (exponent, cs) ← exponentPart cs
  match Literal.value? { negative, whole, fraction, exponent } with
  | some json => .ok (json, cs)
  | none => .error .malformed

/-! ## Values -/

/-- A value without parts, at the very front of a text. -/
def scalar : Reader Json
  | [] => .error .incomplete
  | 'n' :: cs => do .ok (.null, ← keyword ['u', 'l', 'l'] cs)
  | 't' :: cs => do .ok (.bool true, ← keyword ['r', 'u', 'e'] cs)
  | 'f' :: cs => do .ok (.bool false, ← keyword ['a', 'l', 's', 'e'] cs)
  | '"' :: cs => do
    let (s, rest) ← stringBody cs
    .ok (.string s, rest)
  | '-' :: cs => number true cs
  | c :: cs => if c.isDigit then number false (c :: cs) else .error .malformed

/-- The rest of a container after one of its items: the closing bracket, or a comma and a further
item. What has been read so far is the state, and `step` reads one more item into it. The budget is
a bound on the number of items. -/
def sequenceRest {σ : Type} (close : Char) (step : σ → Reader σ) : Nat → σ → Reader σ
  | 0, _, _ => .error .incomplete
  | budget + 1, state, cs =>
    match skipSpace cs with
    | [] => .error .incomplete
    | c :: rest =>
      if c = close then .ok (state, rest)
      else if c = ',' then do
        let (state, rest) ← step state rest
        sequenceRest close step budget state rest
      else .error .malformed

/-- The items of a container and its closing bracket, given the text after its opening one. -/
def sequence {σ : Type} (close : Char) (step : σ → Reader σ) (state : σ) : Reader σ := fun cs =>
  match skipSpace cs with
  | [] => .error .incomplete
  | c :: rest =>
    if c = close then .ok (state, rest)
    else do
      let (state, rest) ← step state (c :: rest)
      sequenceRest close step (rest.length + 1) state rest

/-- The name of a member. -/
def memberName : Reader String := fun cs =>
  match skipSpace cs with
  | [] => .error .incomplete
  | '"' :: cs => stringBody cs
  | _ :: _ => .error .malformed

/-- The colon between the name and the value of a member. -/
def colon (cs : List Char) : Except Fault (List Char) :=
  match skipSpace cs with
  | [] => .error .incomplete
  | ':' :: rest => .ok rest
  | _ :: _ => .error .malformed

/-- One more item of an array, the latest first. -/
def arrayStep (item : Reader Json) (items : List Json) : Reader (List Json) := fun cs => do
  let (json, rest) ← item cs
  .ok (json :: items, rest)

/-- One more member of an object, the latest first. -/
def objectStep (item : Reader Json) (members : Members) : Reader Members := fun cs => do
  let (name, rest) ← memberName cs
  let rest ← colon rest
  let (json, rest) ← item rest
  .ok ((name, json) :: members, rest)

/-- A value in which at most the given number of containers lie inside each other, with its members
as they are written. -/
def value : Nat → Reader Json
  | nesting, cs =>
    match skipSpace cs, nesting with
    -- Once no nesting is left, a bracket is no beginning of a scalar either and is refused below.
    | '[' :: rest, nesting + 1 => do
      let (items, rest) ← sequence ']' (arrayStep (value nesting)) [] rest
      .ok (.array items.reverse, rest)
    | '\x7b' :: rest, nesting + 1 => do
      let (members, rest) ← sequence '\x7d' (objectStep (value nesting)) [] rest
      .ok (.object members.reverse, rest)
    | cs, _ => scalar cs

/-- How many containers may lie inside each other. -/
def nestingLimit : Nat := 127

/-- Whether nothing but blanks is left of a text. -/
def endOfText (cs : List Char) : Except Fault Unit :=
  if skipSpace cs = [] then .ok () else .error .malformed

/-- A text that holds one value within the given nesting and nothing after it. -/
def parseWithin (nesting : Nat) (text : String) : Except Fault Json := do
  let (json, rest) ← value nesting text.toList
  endOfText rest
  .ok json.settle

/-- A text that holds one value and nothing after it. -/
def parse (text : String) : Except Fault Json :=
  parseWithin nestingLimit text

end FieldCatalog.Json
