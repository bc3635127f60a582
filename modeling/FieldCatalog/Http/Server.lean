import FieldCatalog.Action.Decode
import FieldCatalog.Action.Execute
import FieldCatalog.Decimal.Numeral
import FieldCatalog.Http.MediaType
import FieldCatalog.Http.Target

/-!
# The catalog over HTTP

Two paths are served: actions are posted to one, and the other answers the configuration of an
area. Pages of every origin may ask.

## Main definitions

* `Http.Request`, `Http.Response`: the messages
* `Http.Route`: what a path names
* `Failure.status`: the status of a failed action
* `Http.respond`: the response to a request, none when the request is not well formed
-/

namespace FieldCatalog

/-- The status that answers a failed operation. -/
def Failure.status : Failure → Nat
  | .notFound _ _ => 404
  | .invalidScope _ | .invalidTarget _ _ | .unknownFieldType _ | .invalidField _ => 400
  | .concurrentModification _ | .partialWrite _ _ => 409
  | .config _ | .persistence _ | .lock _ => 500

namespace Http

/-- A request. -/
structure Request where
  method : String
  target : String
  headers : List (String × String)
  body : String
deriving DecidableEq, Repr, Inhabited

/-- A response. -/
structure Response where
  status : Nat
  headers : List (String × String)
  body : Option Json
deriving Repr, Inhabited

/-- What a path names. -/
inductive Route
  | action
  | area (component area itemid : List Char)
deriving DecidableEq, Repr

/-- The route of a path. The segments must be exactly those of the route; the last one must not be
empty. -/
def Route.ofPath? (path : List Char) : Option Route :=
  match segments path with
  | [[], version, name] =>
    if version = "v1".toList ∧ name = "action".toList then some .action else none
  | [[], version, name, component, label, itemid] =>
    if version = "v1".toList ∧ name = "areas".toList ∧ itemid ≠ [] then
      some (.area component label itemid)
    else none
  | _ => none

/-- The methods that a route allows, in the spelling of the header that names them. -/
def Route.allow : Route → String
  | .action => "POST"
  | .area _ _ _ => "GET,HEAD"

/-- Whether every part of a request may be sent: the method and the names of headers are tokens, and
the values of headers hold no control characters but tabs. -/
def Request.wellFormed (r : Request) : Bool :=
  let token (s : String) : Bool := !s.isEmpty && s.toList.all isToken
  token r.method && r.headers.all fun (name, value) =>
    token name && value.toList.all fun c => c == '\t' || (0x20 ≤ c.toNat && c.toNat ≠ 0x7F)

/-- The value of the first header of a name, of which the case does not matter. -/
def Request.header? (r : Request) (name : String) : Option String :=
  (r.headers.find? fun header => header.1.toList.map Char.toLower = name.toList).map (·.2)

/-- A response of the given status, which pages of every origin may read. -/
def Response.ofStatus (status : Nat) (body : Option Json) : Response where
  status := status
  headers := [("access-control-allow-origin", "*")]
  body := body

/-- The response with one more header. -/
def Response.withHeader (r : Response) (name value : String) : Response :=
  { r with headers := r.headers ++ [(name, value)] }

/-- The response to a browser that asks what it may send. -/
def Response.preflight : Response :=
  ((Response.ofStatus 200 none).withHeader "access-control-allow-methods" "GET,POST").withHeader
    "access-control-allow-headers" "*"

/-- The area that the segments of a path name. -/
def areaOf? (component area itemid : List Char) : Option Area := do
  let component ← percentDecode component
  let area ← percentDecode area
  let itemid ← percentDecode itemid
  let itemid ← Decimal.integer? itemid.toList
  if Decimal.InWord itemid then some { component, area, itemid } else none

variable {σ : Type}

/-- The longest body of an action in bytes. -/
def bodyLimit : Nat := 2 * 1024 * 1024

/-- The response to an action that was posted. -/
def postAction (r : Request) (c : Circumstances σ) (h : Holdings σ) : Response × Holdings σ :=
  if !(r.header? "content-type").any isJson then (.ofStatus 415 none, h)
  else if bodyLimit < r.body.utf8ByteSize then (.ofStatus 413 none, h)
  else
    match Action.read r.body.toList with
    | .error .mismatch => (.ofStatus 422 none, h)
    | .error _ => (.ofStatus 400 none, h)
    | .ok (action, _) =>
      match action.execute.run c h with
      | (.ok refresh, h) => (.ofStatus 200 (some (Reply.refreshed refresh).toJson), h)
      | (.error e, h) => (.ofStatus e.status (some (Reply.ofFailure e).toJson), h)

/-- The configuration of an area as the body of a response. -/
def configurationBody (sections : List Section) : Json :=
  .ofList [("status", .string "ok"), ("categories", .array (sections.map Section.toJson))]

/-- The response to a request for the configuration of an area. -/
def getArea (component area itemid : List Char) (h : Holdings σ) : Response :=
  match areaOf? component area itemid with
  | some area => .ofStatus 200 (some (configurationBody (h.contents.configuration area)))
  | none => .ofStatus 400 none

/-- The response to a request whose path names a route. -/
def serve (route : Route) (r : Request) (c : Circumstances σ) (h : Holdings σ) :
    Response × Holdings σ :=
  match route with
  -- A method that a route does not allow is refused before the route looks at the request.
  | .action =>
    if r.method = "POST" then postAction r c h
    else ((Response.ofStatus 405 none).withHeader "allow" route.allow, h)
  | .area component area itemid =>
    if r.method = "GET" then (getArea component area itemid h, h)
    else if r.method = "HEAD" then ({ getArea component area itemid h with body := none }, h)
    else ((Response.ofStatus 405 none).withHeader "allow" route.allow, h)

/-- The response to a request, none when the request is not well formed. -/
def respond (r : Request) (c : Circumstances σ) (h : Holdings σ) :
    Option (Response × Holdings σ) := do
  let path ← pathOf? r.target.toList
  if !r.wellFormed then none
  else match Route.ofPath? path with
    | none =>
      if r.method = "OPTIONS" then some (.preflight, h) else some (.ofStatus 404 none, h)
    | some route =>
      if r.method = "OPTIONS" then some (Response.preflight.withHeader "allow" route.allow, h)
      else some (serve route r c h)

end Http

end FieldCatalog
