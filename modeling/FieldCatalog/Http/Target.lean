import FieldCatalog.Http.Authority

/-!
# Request targets

The target of a request names a path, whose segments are compared as they are written and decoded
afterwards.

## Main definitions

* `Http.pathOf?`: the path of a target, none when the target is not well formed
* `Http.segments`: the pieces between the slashes of a path
* `Http.percentDecode`: the text that a segment stands for
-/

namespace FieldCatalog.Http

/-! ## Percent encoding -/

/-- The value of a hexadecimal digit of either case, in ASCII. -/
def hexValue? (b : UInt8) : Option UInt8 :=
  if 0x30 ≤ b ∧ b ≤ 0x39 then some (b - 0x30)
  else if 0x41 ≤ b ∧ b ≤ 0x46 then some (b - 0x41 + 10)
  else if 0x61 ≤ b ∧ b ≤ 0x66 then some (b - 0x61 + 10)
  else none

/-- Bytes with every escape of a percent sign and two hexadecimal digits replaced by the byte it
stands for. A percent sign that starts no escape stands for itself. -/
def unescape : List UInt8 → List UInt8
  | [] => []
  | 0x25 :: a :: b :: rest =>
    match hexValue? a, hexValue? b with
    | some high, some low => (16 * high + low) :: unescape rest
    | _, _ => 0x25 :: unescape (a :: b :: rest)
  | b :: rest => b :: unescape rest

/-- The text that a segment stands for, none when its bytes are not UTF-8. -/
def percentDecode (segment : List Char) : Option String :=
  let bytes := (String.ofList segment).toUTF8.toList
  String.fromUTF8? ⟨(unescape bytes).toArray⟩

/-! ## Paths -/

/-- The characters that may stand in a path. -/
def isPathChar (c : Char) : Bool :=
  let n := c.toNat
  n = 0x21 || n = 0x22 || (0x24 ≤ n && n ≤ 0x3B) || n = 0x3D || (0x40 ≤ n && n ≤ 0x5F) ||
    (0x61 ≤ n && n ≠ 0x7F)

/-- The characters that may stand in a query. -/
def isQueryChar (c : Char) : Bool :=
  let n := c.toNat
  n = 0x21 || (0x24 ≤ n && n ≤ 0x3B) || n = 0x3D || (0x3F ≤ n && n ≠ 0x7F)

/-- The path at the front of a text. A question mark ends it and starts the query; a number sign
ends either and starts the fragment, which may hold anything. -/
def pathAndQuery? (cs : List Char) : Option (List Char) :=
  let inPath (c : Char) : Bool := c != '?' && c != '#'
  let path := cs.takeWhile inPath
  let query :=
    match cs.dropWhile inPath with
    | '?' :: rest => rest.takeWhile (· != '#')
    | _ => []
  if path.all isPathChar && query.all isQueryChar then some path else none

/-! ## Targets -/

/-- The characters that may stand in the scheme of a target. -/
def isSchemeChar (c : Char) : Bool :=
  c.isAlphanum || "+-.~".toList.contains c

/-- The scheme of a target that names one, and what follows the colon and slashes behind it. -/
def splitScheme? (target : List Char) : Option (List Char × List Char) :=
  match target.dropWhile isSchemeChar with
  | ':' :: '/' :: '/' :: rest => some (target.takeWhile isSchemeChar, rest)
  | _ => none

/-- The longest scheme. -/
def schemeLimit : Nat := 64

/-- The longest target in bytes. -/
def targetLimit : Nat := 65534

/-- The path behind the authority of a target with a scheme. The authority must not be empty, and a
slash stands for a missing path. -/
def pathBehindAuthority? (cs : List Char) : Option (List Char) :=
  let inAuthority (c : Char) : Bool := c != '/' && c != '?' && c != '#'
  let authority := cs.takeWhile inAuthority
  if !authority.isEmpty && isAuthority authority then
    (pathAndQuery? (cs.dropWhile inAuthority)).map fun path =>
      if path.isEmpty then ['/'] else path
  else none

/-- The path of a target. A target is a path, a scheme with an authority and a path, an authority
alone, which has no path, or a single star. -/
def pathOf? (target : List Char) : Option (List Char) :=
  if targetLimit < (String.ofList target).utf8ByteSize then none
  else match target with
    | [] => none
    | '/' :: _ => pathAndQuery? target
    | ['*'] => some ['*']
    | _ =>
      match splitScheme? target with
      | some (scheme, rest) =>
        if schemeLimit < scheme.length then none else pathBehindAuthority? rest
      | none => if isAuthority target then some [] else none

/-! ## Segments -/

/-- The pieces between the slashes of a path. -/
def segments : List Char → List (List Char)
  | [] => [[]]
  | c :: cs =>
    if c = '/' then [] :: segments cs
    else match segments cs with
      | [] => [[c]]
      | piece :: rest => (c :: piece) :: rest

end FieldCatalog.Http
