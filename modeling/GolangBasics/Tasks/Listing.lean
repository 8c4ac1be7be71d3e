import GolangBasics.Fmt
import GolangBasics.Keyset
import GolangBasics.Strconv
import GolangBasics.Tasks.Domain
import Mathlib.Data.Prod.Lex

/-! The pages of tasks: the domain's page types, the repository's `List` and the handler of
`GET /tasks`. -/
namespace GolangBasics.Tasks

def defaultPageSize : Nat := 50

def maxPageSize : Nat := 200

structure Cursor where
  createdAt : Nat
  id : String
  deriving DecidableEq, Repr

def cursorAfter (t : Task) : Cursor := ⟨t.createdAt, t.id⟩

structure PageRequest where
  limit : Int
  cursor : Option Cursor

structure Page where
  tasks : List Task
  next : Option Cursor

/-- `Cursor.Encode`, `DecodeCursor` and the table of printable characters. -/
structure Texts where
  encode : Cursor → String
  decodeCursor : String → Except Err Cursor
  isPrint : Nat → Bool

namespace Store

section
variable {κ : Type} [LinearOrder κ] (collate : String → κ)

/-- Where `(created_at, id)` stands in a row comparison; the collation of the database
gives the order of the ids. -/
def position (c : Cursor) : ℕ ×ₗ κ := toLex (c.createdAt, collate c.id)

def place (t : Task) : ℕ ×ₗ κ := position collate (cursorAfter t)

/-- The two queries of `List` on a snapshot of the table: without a cursor there is no
`WHERE`. -/
def selectTasks (rows : List Task) (cursor : Option Cursor) (limit : Nat) : List Task :=
  (Keyset.select (place collate) (cursor.map (position collate)) rows).take limit

end

def pageLimit (limit : Int) : Nat :=
  if limit ≤ 0 ∨ limit > maxPageSize then defaultPageSize else limit.toNat

/-- `List`, with the answer of its query: it reads one row more than asked. -/
def list (query : Option Cursor → Nat → Except Err (List Task)) (req : PageRequest) :
    Except Err Page :=
  let limit := pageLimit req.limit
  match query req.cursor (limit + 1) with
  | .error err => .error (.wrap "store: list tasks: " err)
  | .ok tasks =>
    if limit < tasks.length then
      let shown := tasks.take limit
      .ok ⟨shown, shown[limit - 1]?.map cursorAfter⟩
    else .ok ⟨tasks, none⟩

end Store

namespace Api

/-- `httpx.Problem`; `code` is its only extension. -/
structure Problem where
  status : Nat
  detail : Bytes
  code : Option String := none
  cause : Option Err := none

def problem (status : Nat) (code : String) (detail : Bytes) : Problem :=
  { status := status, detail := detail, code := some code }

def badRequest (code : String) (err : Err) : Problem :=
  { status := 400, detail := err.text, code := some code }

/-- A spent deadline is `httpx.WriteError`'s 504. -/
def fail (detail : String) (err : Err) : Problem :=
  if err.is .deadlineExceeded then
    { status := 504, detail := utf8 "the request took too long", cause := some err }
  else { status := 500, detail := utf8 detail, cause := some err }

/-- The values of a query string by name, in the order the map is ranged over. -/
abbrev Query := List (String × List String)

def Query.get (q : Query) (name : String) : String :=
  match q.lookup name with
  | none => ""
  | some values => values.headD ""

/-- The loop over the parameters: the first that is unknown or repeated is the answer. -/
def checkParams (lib : Texts) : Query → Except Problem Unit
  | [] => .ok ()
  | (name, values) :: rest =>
    if name ≠ "limit" ∧ name ≠ "cursor" then
      .error (problem 400 "unknown_parameter" (utf8 "unknown query parameter " ++
        quote lib.isPrint (utf8 name) ++ utf8 "; only limit and cursor are accepted"))
    else if values.length > 1 then
      .error (problem 400 "repeated_parameter" (utf8 "query parameter " ++
        quote lib.isPrint (utf8 name) ++ utf8 " given more than once"))
    else checkParams lib rest

def invalidLimit : Problem :=
  problem 400 "invalid_limit" (utf8 ("limit must be an integer from 1 to " ++ toString maxPageSize))

def limitOf (q : Query) : Except Problem Int :=
  match q.lookup "limit" with
  | none => .ok defaultPageSize
  | some _ =>
    match parseInt (q.get "limit") with
    | .error _ => .error invalidLimit
    | .ok n => if n < 1 ∨ n > maxPageSize then .error invalidLimit else .ok n

def cursorOf (lib : Texts) (q : Query) : Except Problem (Option Cursor) :=
  match q.lookup "cursor" with
  | none => .ok none
  | some _ =>
    match lib.decodeCursor (q.get "cursor") with
    | .error err => .error (badRequest "invalid_cursor" err)
    | .ok c => .ok (some c)

structure TaskList where
  tasks : List Task
  nextCursor : Option String

def list (lib : Texts) (query : Option Cursor → Nat → Except Err (List Task)) (q : Query) :
    Except Problem TaskList := do
  checkParams lib q
  let limit ← limitOf q
  let cursor ← cursorOf lib q
  match Store.list query ⟨limit, cursor⟩ with
  | .error err => .error (fail "could not list tasks" err)
  | .ok page => .ok ⟨page.tasks, page.next.map lib.encode⟩

end Api
end GolangBasics.Tasks
