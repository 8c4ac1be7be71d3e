import GolangBasics.Encoding
import GolangBasics.Rfc3339
import GolangBasics.Strconv
import GolangBasics.Url

/-! The handlers of the tasks routes, from the bytes of a request to their call of the store. -/
namespace GolangBasics.Tasks.Wire
open Json (Piece Value unquote)

def maxTitleRunes : Nat := 200

def normalizeTitle (title : Bytes) : Except String Bytes :=
  let t := trimSpace title
  if t = [] then .error "invalid title: must not be empty or blank"
  else if !validString t then .error "invalid title: must be valid UTF-8"
  else if maxTitleRunes < (runes t).length then
    .error ("invalid title: must be at most " ++ toString maxTitleRunes ++ " characters")
  else
    -- the loop stops at the first rune that is not allowed
    match (runes t).find? fun x => x.1 = 0 || (x.1 < 0x20 && x.1 ≠ 0x09) || x.1 = 0x7F with
    | some x =>
      if x.1 = 0 then .error "invalid title: must not contain NUL"
      else .error "invalid title: must not contain control characters"
    | none => .ok t

structure Cursor where
  createdAt : Int
  id : Bytes

/-- `cursorWire`, as its two strings stand in the JSON document. -/
structure CursorWire where
  t : List Piece
  i : List Piece

def cursorWire (s : Bytes) : Option CursorWire := do
  let members ← (← Json.parse (← rawURLDecode s)).members
  some ⟨← Json.stringField "t" members, ← Json.stringField "i" members⟩

def decodeCursor (s : Bytes) : Option Cursor := do
  let w ← cursorWire s
  let createdAt ← Rfc3339.parse (unquote w.t)
  if unquote w.i = [] then none else some ⟨createdAt, unquote w.i⟩

inductive Method where
  | get | head | post | patch | delete | other
  deriving DecidableEq

/-- What the server has read of a request. `body` is `none` when it is longer than
`MaxBodyBytes`. -/
structure Request where
  method : Method
  path : Bytes
  rawQuery : Bytes := []
  header : String → List Bytes := fun _ => []
  body : Option Bytes := some []

structure Problem where
  status : Nat
  code : Option String := none
  deriving DecidableEq

def badRequest (code : String) : Problem := ⟨400, some code⟩

inductive StoreCall where
  | create (id title : Bytes) (idem : Option (Bytes × Bytes))
  | get (id : Bytes)
  | list (limit : Int) (cursor : Option Cursor)
  | update (id : Bytes) (title : Option Bytes) (done : Option Bool) (expect : Option Int)
  | delete (id : Bytes) (expect : Option Int)

def decodeJSON (r : Request) : Except Problem (List (List Piece × Value)) :=
  match r.body with
  | none => .error ⟨413, none⟩
  | some body =>
    match (Json.parse body).bind Value.members with
    | none => .error ⟨400, none⟩
    | some members => .ok members

def maxIdempotencyKeyLength : Nat := 255

def idempotencyKey (r : Request) (title : Bytes) : Except String (Option (Bytes × Bytes)) :=
  let key := (r.header "Idempotency-Key").headD []
  if key = [] then
    if r.header "Idempotency-Key" ≠ [] then .error "Idempotency-Key must not be empty"
    else .ok none
  else if maxIdempotencyKeyLength < key.length then
    .error "Idempotency-Key must be at most 255 characters"
  else if key.any fun c => c < 0x20 || c > 0x7E then
    .error "Idempotency-Key must be printable ASCII"
  else .ok (some (key, hexEncode (sum256 title)))

/-- `create`; `id` is the UUID it makes. -/
def create (id : Bytes) (r : Request) : Except Problem StoreCall := do
  let members ← decodeJSON r
  match Json.stringField "title" members with
  | none => .error ⟨400, none⟩
  | some pieces =>
    match normalizeTitle (unquote pieces) with
    | .error _ => .error (badRequest "invalid_title")
    | .ok title =>
      match idempotencyKey r title with
      | .error _ => .error (badRequest "invalid_idempotency_key")
      | .ok idem => .ok (.create id title idem)

def defaultPageSize : Int := 50

def maxPageSize : Int := 200

def parseInt (s : Bytes) : Except NumError Int :=
  GolangBasics.parseInt (String.ofList (s.map fun b => Char.ofNat b.toNat))

def limitParam (query : List (Bytes × Bytes)) : Except Problem Int :=
  match query.lookup (utf8 "limit") with
  | none => .ok defaultPageSize
  | some raw =>
    match parseInt raw with
    | .error _ => .error (badRequest "invalid_limit")
    | .ok n => if n < 1 ∨ n > maxPageSize then .error (badRequest "invalid_limit") else .ok n

def checkParams (query : List (Bytes × Bytes)) : Except Problem Unit :=
  let names := query.map Prod.fst
  if names.any fun name => name ≠ utf8 "limit" ∧ name ≠ utf8 "cursor" then
    .error (badRequest "unknown_parameter")
  else if ¬ names.Nodup then .error (badRequest "repeated_parameter")
  else .ok ()

def list (r : Request) : Except Problem StoreCall := do
  let query := Url.query r.rawQuery
  checkParams query
  let limit ← limitParam query
  match query.lookup (utf8 "cursor") with
  | none => .ok (.list limit none)
  | some raw =>
    match decodeCursor raw with
    | none => .error (badRequest "invalid_cursor")
    | some c => .ok (.list limit (some c))

def maxIfMatchLength : Nat := 20

def ifMatch (r : Request) : Except String (Option Int) :=
  let raw := trimSpace ((r.header "If-Match").headD [])
  if r.header "If-Match" = [] ∨ raw = utf8 "*" then .ok none
  else if raw.length < 3 ∨ maxIfMatchLength < raw.length ∨ raw.head? ≠ some 0x22 ∨
      raw.getLast? ≠ some 0x22 then
    .error "If-Match must be a single strong entity tag such as \"3\" (weak tags never match)"
  else
    match parseInt (raw.drop 1).dropLast with
    | .ok v =>
      if v < 1 then .error "If-Match must carry a task version such as \"3\"" else .ok (some v)
    | .error _ => .error "If-Match must carry a task version such as \"3\""

/-- The members as a Go map: the last value of a name wins. -/
def rawMap (members : List (List Piece × Value)) : List (Bytes × Value) :=
  members.foldl (fun m x => (unquote x.1, x.2) :: m.filter fun y => y.1 ≠ unquote x.1) []

/-- `decodePatch`: a field that the contract does not know and an explicit null are errors. -/
def decodePatch (raw : List (Bytes × Value)) : Option (Option (List Piece) × Option Bool) :=
  raw.foldlM (fun req x =>
    if x.1 = utf8 "title" then
      match x.2 with
      | .string pieces => some (some pieces, req.2)
      | _ => none
    else if x.1 = utf8 "done" then
      match x.2 with
      | .bool done => some (req.1, some done)
      | _ => none
    else none) (none, none)

/-- `Patch.Normalize`, with the code of its error. -/
def normalizePatch (title : Option Bytes) (done : Option Bool) :
    Except String (Option Bytes × Option Bool) :=
  match title with
  | none => if done.isNone then .error "empty_patch" else .ok (none, done)
  | some title =>
    match normalizeTitle title with
    | .error _ => .error "invalid_title"
    | .ok t => .ok (some t, done)

def update (id : Bytes) (r : Request) : Except Problem StoreCall :=
  match ifMatch r with
  | .error _ => .error (badRequest "invalid_if_match")
  | .ok expect => do
    let members ← decodeJSON r
    match decodePatch (rawMap members) with
    | none => .error (badRequest "invalid_patch")
    | some (title, done) =>
      match normalizePatch (title.map unquote) done with
      | .error code => .error (badRequest code)
      | .ok (title, done) => .ok (.update id title done expect)

def delete (id : Bytes) (r : Request) : Except Problem StoreCall :=
  match ifMatch r with
  | .error _ => .error (badRequest "invalid_if_match")
  | .ok expect => .ok (.delete id expect)

/-- The paths that the tasks routes match; `segment` is the part of the path that `{id}`
stands for, still escaped. -/
inductive Route where
  | tasks
  | task (segment : Bytes)
  deriving DecidableEq

/-- How the mux matches an escaped path. A path with an empty, a `.` or a `..` segment is
redirected, and an escaped slash matches no wildcard. -/
def route : Bytes → Option Route
  | [] => none
  | slash :: rest =>
    let (first, after) := rest.span (· ≠ 0x2F)
    if slash ≠ 0x2F ∨ Url.pathUnescape first ≠ utf8 "tasks" then none
    else
      match after with
      | [] => some .tasks
      | _ :: segment =>
        if segment.contains 0x2F ∨ segment ∈ [[], utf8 ".", utf8 ".."] ∨
            Url.pathUnescape segment = [0x2F] then none
        else some (.task segment)

def Request.route (r : Request) : Option Route := (Url.escapedPath r.path).bind Wire.route

/-- What a request to the tasks routes comes to: a problem, or a call of the store. For `get`
that is the call it makes when the cache has no entry. -/
def handle (newId : Bytes) (r : Request) : Option (Except Problem StoreCall) :=
  if Url.containsCTL (r.path ++ r.rawQuery) then none
  else
    match r.route, r.method with
    | some .tasks, .post => some (create newId r)
    | some .tasks, .get | some .tasks, .head => some (list r)
    | some (.task segment), .get | some (.task segment), .head =>
      some (.ok (.get (Url.pathUnescape segment)))
    | some (.task segment), .patch => some (update (Url.pathUnescape segment) r)
    | some (.task segment), .delete => some (delete (Url.pathUnescape segment) r)
    | _, _ => none

end GolangBasics.Tasks.Wire
