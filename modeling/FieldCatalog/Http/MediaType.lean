/-!
# Media types

## Main definitions

* `Http.isToken`: the characters of tokens
* `Http.isJson`: whether a media type announces JSON
-/

namespace FieldCatalog.Http

/-- The characters of which tokens are made: methods, names of headers and parts of media types. -/
def isToken (c : Char) : Bool :=
  c.isAlphanum || "!#$%&'*+-.^_\x60|~".toList.contains c

/-- The rest of a media type after the closing quotation mark of a parameter: blanks, and a
semicolon before the next parameter. -/
def afterQuoted : List Char → Option (List Char)
  | [] => some []
  | ' ' :: cs => afterQuoted cs
  | ';' :: cs => some cs
  | _ :: _ => none

/-- The rest of a media type after a quoted value, which has at least one character. -/
def quotedValue (cs : List Char) : Option (List Char) :=
  match cs with
  | [] => none
  | c :: rest =>
    let body := rest.takeWhile (· != '"')
    match rest.dropWhile (· != '"') with
    | '"' :: rest =>
      if (c :: body).all fun c => 0x1F < c.toNat && c.toNat ≠ 0x7F then afterQuoted rest else none
    | _ => none

/-- The rest of a media type after an unquoted value. -/
def plainValue (cs : List Char) : Option (List Char) :=
  match cs.dropWhile isToken with
  | [] => some []
  | ';' :: rest => if (cs.takeWhile isToken).isEmpty then none else some rest
  | _ => none

/-- The rest of a media type after one parameter, of which the name must not be empty. -/
def parameter (cs : List Char) : Option (List Char) :=
  if (cs.takeWhile isToken).isEmpty then none
  else match cs.dropWhile isToken with
    | '=' :: '"' :: rest => quotedValue rest
    | '=' :: rest => plainValue rest
    | _ => none

/-- Whether parameters are well formed. The budget bounds their number. -/
def areParameters : Nat → List Char → Bool
  | 0, _ => false
  | budget + 1, cs =>
    match cs.dropWhile (· == ' ') with
    | [] => true
    | cs =>
      match parameter cs with
      | some rest => areParameters budget rest
      | none => false

/-- What follows the last plus sign after the first character, and what stands before it. -/
def splitSuffix (subtype : List Char) : List Char × Option (List Char) :=
  let suffix := (subtype.reverse.takeWhile (· != '+')).reverse
  let rest := (subtype.reverse.dropWhile (· != '+')).reverse.dropLast
  if rest.isEmpty then (subtype, none) else (rest, some suffix)

/-- Whether a media type is `application/json` or one whose subtype has the suffix `json`. Case does
not matter, and parameters must be well formed. -/
def isJsonType (cs : List Char) : Bool :=
  let type := cs.takeWhile isToken
  match cs.dropWhile isToken with
  | '/' :: cs =>
    let subtype := (cs.takeWhile isToken).map Char.toLower
    let (base, suffix) := splitSuffix subtype
    type.map Char.toLower = "application".toList &&
      (base = "json".toList || suffix = some "json".toList) &&
      match cs.dropWhile isToken with
      | [] => true
      | ';' :: cs => areParameters (cs.length + 1) cs
      | _ => false
  | _ => false

/-- Whether a media type announces JSON. One that holds anything but ASCII does not, even where a
parameter holds it. -/
def isJson (value : String) : Bool :=
  value.toList.all (fun c => c.toNat < 0x7F) && isJsonType value.toList

end FieldCatalog.Http
