import GolangBasics.Conc.Database
import GolangBasics.Conc.System
import GolangBasics.Pgx.Migrations

/-! `Migrate`, run by any number of processes against one schema under READ COMMITTED: a
statement sees what is committed at its time and the changes of its own transaction. -/
namespace GolangBasics.Pgx
open Conc

/-- `bookkeeping` is `schema_migrations`, once it exists, and `effects` the migrations whose
SQL has taken effect, oldest first. -/
structure Tables where
  bookkeeping : Option (List (Int × String))
  effects : List Migration

def Tables.rows (t : Tables) : List (Int × String) := t.bookkeeping.getD []

def Tables.recorded (t : Tables) : List Int := t.rows.map Prod.fst

/-- The writes of a transaction. The SQL of a migration leaves the bookkeeping alone. -/
inductive Change where
  | createTable
  | runSQL (m : Migration)
  | record (version : Int) (name : String)

def Change.apply : Change → Tables → Tables
  | .createTable, t => { t with bookkeeping := some t.rows }
  | .runSQL m, t => { t with effects := t.effects ++ [m] }
  | .record version name, t => { t with bookkeeping := t.bookkeeping.map (· ++ [(version, name)]) }

/-- A transaction is named by its process and its number there. -/
abbrev Tx := Nat × Nat

/-- The only lock is the advisory lock of the schema; `begun` counts the transactions of a
process. -/
structure State where
  db : Database Tx Unit Change Tables
  begun : Nat → Nat

def State.init (t : Tables) : State where
  db := ⟨0, t, fun _ => none, fun _ => none, []⟩
  begun := fun _ => 0

inductive Req where
  | beginTx
  | lock (tx : Tx)
  | ensureTable (tx : Tx)
  | selectVersion (tx : Tx) (version : Int)
  | exec (tx : Tx) (m : Migration)
  | insertVersion (tx : Tx) (version : Int) (name : String)
  | commit (tx : Tx)
  | rollback (tx : Tx)

/-- The reply when the request is answered; a `SELECT` tells whether there is a row. -/
abbrev Rep : Req → Type
  | .beginTx => Except Err Tx
  | .selectVersion .. => Except Err Bool
  | _ => Option Err

def failure : (r : Req) → Err → Rep r
  | .beginTx, err | .selectVersion .., err => .error err
  | .lock _, err | .ensureTable _, err | .exec .., err | .insertVersion .., err
  | .commit _, err | .rollback _, err => some err

abbrev Cmd := Prog Req Rep

abbrev ask (r : Req) : Cmd (Rep r) := Prog.request r

def Migration.error (m : Migration) (what : String) (err : Err) : Err :=
  .wrap ("pgx: migration " ++ m.file ++ ": " ++ what) err

/-- The transaction of `applyOne` once the version is found missing. -/
def apply (m : Migration) (tx : Tx) : Cmd (Bool × Option Err) := do
  match ← ask (.exec tx m) with
  | some err => pure (false, some (m.error "" err))
  | none =>
    match ← ask (.insertVersion tx m.version m.name) with
    | some err => pure (false, some (m.error "record: " err))
    | none =>
      match ← ask (.commit tx) with
      | some err => pure (false, some (m.error "commit: " err))
      | none => pure (true, none)

def applyTx (m : Migration) (tx : Tx) : Cmd (Bool × Option Err) := do
  match ← ask (.lock tx) with
  | some err => pure (false, some (m.error "lock: " err))
  | none =>
    match ← ask (.ensureTable tx) with
    | some err => pure (false, some (m.error "schema_migrations: " err))
    | none =>
      match ← ask (.selectVersion tx m.version) with
      | .error err => pure (false, some (m.error "read schema_migrations: " err))
      | .ok true => pure (false, none)
      | .ok false => apply m tx

/-- Whether the migration ran, and the error; unless it ran, the transaction is rolled back. -/
def applyOne (m : Migration) : Cmd (Bool × Option Err) := do
  match ← ask .beginTx with
  | .error err => pure (false, some (m.error "begin: " err))
  | .ok tx =>
    let out ← applyTx m tx
    if !out.1 || out.2.isSome then
      let _ ← ask (.rollback tx)
      pure out
    else pure out

def applyAll : List Migration → Cmd (Option Err)
  | [] => pure none
  | m :: rest => do
    let out ← applyOne m
    match out.2 with
    | some err => pure (some err)
    | none => applyAll rest

def migrate (dir : Except Err (List DirEntry)) : Cmd (Option Err) :=
  match loadMigrations dir with
  | .error err => pure (some err)
  | .ok migrations => applyAll migrations

/-- How a request goes: it succeeds, or fails with an error that may abort the transaction;
a commit may also fail with its outcome unknown. -/
inductive Choice where
  | ok
  | fail (err : Err) (aborts : Bool)
  | unknown (err : Err)

def duplicateKey : Err := .new (utf8 "duplicate key value violates unique constraint")

def undefinedTable : Err := .new (utf8 "relation \"schema_migrations\" does not exist")

def State.abort (s : State) (tx : Tx) (aborts : Bool) : State :=
  { s with db := match s.db.session tx with
    | some (.active ..) => if aborts then s.db.put tx .failed else s.db
    | _ => s.db }

def State.close (s : State) (tx : Tx) : State :=
  { s with db := match s.db.session tx with
    | some (.active ..) | some .failed => s.db.close tx .closed
    | _ => s.db }

def State.write (s : State) (tx : Tx) (start : Nat) (changes : List Change) (c : Change) : State :=
  { s with db := s.db.write tx start changes [] c }

/-- A statement of an active transaction. With `none` it waits for the lock. -/
def execute (tx : Tx) (s : State) (start : Nat) (changes : List Change) :
    (r : Req) → Option (Rep r × State)
  | .lock _ =>
    if s.db.locks () = none ∨ s.db.locks () = some tx then
      some (none, { s with db := s.db.acquire tx [()] })
    else none
  | .ensureTable _ =>
    if (s.db.view Change.apply tx).bookkeeping.isSome then some (none, s)
    else some (none, s.write tx start changes .createTable)
  | .selectVersion _ version =>
    match (s.db.view Change.apply tx).bookkeeping with
    | none => some (.error undefinedTable, s.abort tx true)
    | some rows => some (.ok (version ∈ rows.map Prod.fst), s)
  | .exec _ m => some (none, s.write tx start changes (.runSQL m))
  | .insertVersion _ version name =>
    match (s.db.view Change.apply tx).bookkeeping with
    | none => some (some undefinedTable, s.abort tx true)
    | some rows =>
      if version ∈ rows.map Prod.fst then some (some duplicateKey, s.abort tx true)
      else some (none, s.write tx start changes (.record version name))
  | .commit _ => some (none, { s with db := s.db.commit Change.apply tx changes })
  | _ => none

def Req.tx? : Req → Option Tx
  | .beginTx => none
  | .lock tx | .ensureTable tx | .selectVersion tx _ | .exec tx _ | .insertVersion tx ..
  | .commit tx | .rollback tx => some tx

def answer (p : Nat) (s : State) (r : Req) : Option (Rep r × State) :=
  match r with
  | .beginTx => some (.ok (p, s.begun p),
      ⟨s.db.start (p, s.begun p), Function.update s.begun p (s.begun p + 1)⟩)
  | .rollback tx => some (none, s.close tx)
  | r =>
    match r.tx? with
    | none => none
    | some tx =>
      match s.db.session tx with
      | some (.active start changes) => execute tx s start changes r
      | _ => none

def State.fault (s : State) (r : Req) (aborts : Bool) : State :=
  match r with
  | .beginTx => s
  | .commit tx => s.close tx
  | .lock tx | .ensureTable tx | .selectVersion tx _ | .exec tx _ | .insertVersion tx ..
  | .rollback tx => s.abort tx aborts

def serve (p : Nat) (r : Req) (x : Choice) (s : State) : Option (Rep r × State) :=
  match x with
  | .ok => answer p s r
  | .fail err aborts => some (failure r err, s.fault r aborts)
  | .unknown err =>
    match r with
    | .commit tx =>
      match s.db.session tx with
      | some (.active _ changes) =>
        some (some err, { s with db := s.db.put tx (.committing changes) })
      | _ => none
    | _ => none

/-- The server drops a transaction, as when its process has crashed, or decides a commit whose
outcome was unknown. -/
inductive Env where
  | drop (tx : Tx)
  | land (tx : Tx)
  | giveUp (tx : Tx)

def env : Env → State → Option State
  | .drop tx, s =>
    match s.db.session tx with
    | some (.active ..) | some .failed => some { s with db := s.db.close tx .closed }
    | _ => none
  | .land tx, s =>
    match s.db.session tx with
    | some (.committing changes) =>
      some { s with db := s.db.commit Change.apply tx changes }
    | _ => none
  | .giveUp tx, s =>
    match s.db.session tx with
    | some (.committing _) => some { s with db := s.db.close tx .closed }
    | _ => none

/-- Any number of processes that run `Migrate` over one directory. A process that crashes
takes no further step. -/
def runners (dir : Except Err (List DirEntry)) :
    Machine Nat Req Rep State Choice Env Unit (Option Err) where
  serve := serve
  env := env
  accept _ _ s := some s
  code _ _ := migrate dir

end GolangBasics.Pgx
