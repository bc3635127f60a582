/-!
# Authorities

The authority of a target names a host, perhaps with a user before it and a port behind it. It is
read from left to right, once.

## Main definitions

* `Http.Authority`: what has been seen of an authority
* `Http.Authority.step`: one more character
* `Http.isAuthority`: the form of an authority
-/

namespace FieldCatalog.Http

/-- The characters that may stand in an authority without a meaning of their own. -/
def isHostChar (c : Char) : Bool :=
  c.isAlphanum || "-._~!$&'()*+,;=".toList.contains c

/-- What has been seen of an authority: the colons and whether there was a percent sign since the
user or the bracketed address ended, and which brackets there were. -/
structure Authority where
  colons : Nat
  percent : Bool
  opened : Bool
  closed : Bool
deriving DecidableEq, Repr, Inhabited

namespace Authority

/-- Nothing seen so far. -/
def start : Authority := ⟨0, false, false, false⟩

/-- One more character of an authority. Users and addresses in brackets may hold percent signs and
up to eight colons; there is one pair of brackets at most. -/
def step (seen : Authority) (c : Char) : Option Authority :=
  match c with
  | ':' => if seen.colons < 8 then some { seen with colons := seen.colons + 1 } else none
  | '%' => some { seen with percent := true }
  | '@' => some { seen with colons := 0, percent := false }
  | '[' => if seen.percent || seen.opened then none else some { seen with opened := true }
  | ']' =>
    if seen.opened && !seen.closed then some ⟨0, false, true, true⟩
    else none
  | c => if isHostChar c then some seen else none

/-- Whether an authority may end here: brackets are closed, and what stands behind the user and the
brackets holds no percent sign and at most the colon before a port. -/
def complete (seen : Authority) : Bool :=
  seen.opened == seen.closed && !seen.percent && seen.colons ≤ 1

end Authority

/-- Whether a text is an authority: a host, perhaps with a user before it and a port behind it. It
must not end with the sign that separates user and host. -/
def isAuthority (cs : List Char) : Bool :=
  match cs.foldlM Authority.step .start with
  | some seen => seen.complete && cs.getLast? != some '@'
  | none => false

end FieldCatalog.Http
