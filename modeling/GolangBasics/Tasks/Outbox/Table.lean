import GolangBasics.Conc.Database
import GolangBasics.Conc.System
import GolangBasics.Float64
import GolangBasics.Kafka.Types
import GolangBasics.Utf8
import Mathlib.Data.List.Sort

/-! The outbox table and the broker as a relay pass sees them: the statements of the
pass's transaction, the publishes, and what may happen to both at any time. -/
namespace GolangBasics.Tasks.Outbox
open Conc

inductive EventType where
  | created | updated | deleted
  deriving DecidableEq, Repr

def EventType.text : EventType → String
  | created => "task.created"
  | updated => "task.updated"
  | deleted => "task.deleted"

structure Pending where
  id : Nat
  eventID : String
  aggregateID : String
  eventType : EventType
  payload : Bytes
  headers : List (String × String)
  deriving DecidableEq

/-- A row of the table. Times are nanoseconds of the database clock. -/
structure Row extends Pending where
  rejections : Nat
  nextAttemptAt : Option Nat
  lastError : Option Bytes

def Row.fresh (x : Pending) : Row := ⟨x, 0, none, none⟩

inductive Change where
  | rejection (id : Nat) (lastError : Bytes) (nextAttemptAt : Nat)
  | failure (id : Nat) (lastError : Bytes)
  | delete (ids : List Nat)

def Change.apply : Change → List Row → List Row
  | .rejection id lastError nextAttemptAt, rows => rows.map fun r =>
      if r.id = id then
        { r with rejections := r.rejections + 1, lastError := some lastError,
                 nextAttemptAt := some nextAttemptAt }
      else r
  | .failure id lastError, rows => rows.map fun r =>
      if r.id = id then { r with lastError := some lastError } else r
  | .delete ids, rows => rows.filter fun r => r.id ∉ ids

/-- `rejections < $2 AND (next_attempt_at IS NULL OR next_attempt_at <= now())`. -/
def Row.due (r : Row) (maxAttempts now : Nat) : Bool :=
  r.rejections < maxAttempts && r.nextAttemptAt.all (· ≤ now)

def selectRows (rows : List Row) (limit maxAttempts now : Nat) (locked : List Nat) : List Pending :=
  (((rows.filter fun r => r.due maxAttempts now && r.id ∉ locked).map Row.toPending).insertionSort
    fun x y => x.id ≤ y.id).take limit

def maxRejectDelay : Nat := 3600 * 10 ^ 9

def seconds (d : Nat) : ℚ :=
  Float64.nearest ((d / 10 ^ 9 : Nat) + Float64.nearest ((d % 10 ^ 9 : Nat) / 10 ^ 9))

/-- `least($3::float8 * power(2, rejections), $4::float8)` seconds as an interval, which has
whole microseconds. In float8 the power and the product fail when they overflow. -/
def rejectDelay (backoff rejections : Nat) : Option Nat :=
  let product := seconds backoff * 2 ^ rejections
  if 1024 ≤ rejections ∨ (2 ^ 1024 : Nat) ≤ product then none
  else some (1000 * (Float64.rint (Float64.nearest
    (10 ^ 6 * min product (seconds maxRejectDelay)))).toNat)

def retryAt (now backoff rejections : Nat) : Option Nat :=
  (rejectDelay backoff rejections).map (now + ·)

/-- A record handed to the broker by a pass, and what `Send` returned. -/
structure Sent where
  pass : Nat
  row : Nat
  result : Option Err
  deriving DecidableEq

def Sent.acked (x : Sent) : Bool := x.result.isNone

def Sent.rejected (x : Sent) : Bool := x.result.any Err.rejected

/-- `log` holds the publishes and `enqueued` the committed rows, both newest first. The
only lock is the relay's advisory lock. -/
structure State where
  db : Database Nat Unit Change (List Row)
  log : List Sent
  enqueued : List Pending

def State.init : State := ⟨⟨0, [], fun _ => none, fun _ => none, []⟩, [], []⟩

inductive Req where
  | beginTx
  | tryLock
  | selectBatch (limit maxAttempts : Nat)
  | ctxErr
  | send (id : Nat) (msg : Kafka.Message)
  | recordRejection (id : Nat) (lastError : Bytes) (backoff : Nat)
  | recordFailure (id : Nat) (lastError : Bytes)
  | deletePublished (ids : List Nat)
  | commit
  | rollback

inductive Selected where
  | failed (err : Err)
  | unreadable (err : Err)
  | rows (batch : List Pending)

abbrev Rep : Req → Type
  | .tryLock => Except Err Bool
  | .selectBatch .. => Selected
  | .ctxErr => Bool
  | .recordRejection .. => Except Err Nat
  | _ => Option Err

/-- How a request goes: it succeeds, or fails with an error that may abort the
transaction; a commit may also fail with its outcome unknown. -/
inductive Choice where
  | ok
  | fail (err : Err) (aborts : Bool)
  | unknown (err : Err)
  | unreadable (err : Err)
  | rows (locked : List Nat)
  | cancelled (b : Bool)
  | sent (result : Option Err)

def State.abort (s : State) (p : Nat) (aborts : Bool) : State :=
  match s.db.session p with
  | some (.active ..) => if aborts then { s with db := s.db.put p .failed } else s
  | _ => s

def State.stage (s : State) (p start : Nat) (changes : List Change) (c : Change) : State :=
  { s with db := s.db.write p start changes [] c }

def State.close (s : State) (p : Nat) : State :=
  match s.db.session p with
  | some (.active ..) | some .failed => { s with db := s.db.close p .closed }
  | _ => s

/-- The answer to a request of a pass that is alive. Statements need an active
transaction. In an `orderly` world nobody else locks rows of the table. -/
def answer (orderly : Bool) (p : Nat) (s : State) : (r : Req) → Choice → Option (Rep r × State)
  | .beginTx, .ok =>
    match s.db.session p with
    | none => some (none, { s with db := s.db.start p })
    | some _ => none
  | .beginTx, .fail err _ => some (some err, s)
  | .tryLock, .ok =>
    match s.db.session p, s.db.locks () with
    | some (.active ..), none => some (.ok true, { s with db := s.db.acquire p [()] })
    | some (.active ..), some q => some (.ok (q = p), s)
    | _, _ => none
  | .tryLock, .fail err aborts => some (.error err, s.abort p aborts)
  | .selectBatch limit maxAttempts, .rows locked =>
    match s.db.session p with
    | some (.active start _) =>
      if orderly ∧ locked ≠ [] then none else
      some (.rows (selectRows (s.db.view Change.apply p) limit maxAttempts start locked), s)
    | _ => none
  | .selectBatch .., .fail err aborts => some (.failed err, s.abort p aborts)
  | .selectBatch .., .unreadable err => some (.unreadable err, s)
  | .ctxErr, .cancelled b => some (b, s)
  | .send id _, .sent result => some (result, { s with log := ⟨p, id, result⟩ :: s.log })
  | .recordRejection id lastError backoff, .ok =>
    match s.db.session p with
    | some (.active start changes) =>
      match (s.db.view Change.apply p).find? fun r => r.id = id with
      | some r =>
        match retryAt start backoff r.rejections with
        | some next => some (.ok (r.rejections + 1),
            s.stage p start changes (.rejection id lastError next))
        | none => some (.error (.new (utf8 "value out of range: overflow")), s.abort p true)
      | none => some (.error (.new (utf8 "no rows in result set")), s)
    | _ => none
  | .recordRejection .., .fail err aborts => some (.error err, s.abort p aborts)
  | .recordFailure id lastError, .ok =>
    match s.db.session p with
    | some (.active start changes) =>
      some (none, s.stage p start changes (.failure id lastError))
    | _ => none
  | .recordFailure .., .fail err aborts => some (some err, s.abort p aborts)
  | .deletePublished ids, .ok =>
    match s.db.session p with
    | some (.active start changes) => some (none, s.stage p start changes (.delete ids))
    | _ => none
  | .deletePublished _, .fail err aborts => some (some err, s.abort p aborts)
  | .commit, .ok =>
    match s.db.session p with
    | some (.active _ changes) =>
      some (none, { s with db := s.db.commit Change.apply p changes })
    | _ => none
  | .commit, .fail err _ => some (some err, s.close p)
  | .commit, .unknown err =>
    match s.db.session p with
    | some (.active _ changes) => some (some err, { s with db := s.db.put p (.committing changes) })
    | _ => none
  | .rollback, .ok => some (none, s.close p)
  | .rollback, .fail err aborts => some (some err, s.abort p aborts)
  | _, _ => none

def serve (orderly : Bool) (p : Nat) (r : Req) (x : Choice) (s : State) :
    Option (Rep r × State) :=
  match s.db.session p with
  | some .crashed => none
  | _ => answer orderly p s r x

/-- What happens on its own: an `Enqueue` commits, time passes, a pass dies with its
session, the server drops a failed session, or it decides a commit whose outcome was
unknown. The lock admits one pass at a time, so an active session ends on its own only
together with its pass. -/
inductive Env where
  | enqueue (x : Pending)
  | tick (d : Nat)
  | crash (p : Nat)
  | drop (p : Nat)
  | land (p : Nat)
  | giveUp (p : Nat)

/-- Rows get fresh ids. In an `orderly` world the rows of one task become visible in id
order. -/
def env (orderly : Bool) : Env → State → Option State
  | .enqueue x, s =>
    if x.id ∈ s.enqueued.map Pending.id ∨
        (orderly ∧ ∃ y ∈ s.enqueued, y.aggregateID = x.aggregateID ∧ x.id < y.id) then none
    else some { s with db := { s.db with tables := s.db.tables ++ [Row.fresh x] }
                       enqueued := x :: s.enqueued }
  | .tick d, s => some { s with db := { s.db with clock := s.db.clock + d } }
  | .crash p, s =>
    match s.db.session p with
    | some (.active ..) | some .failed => some { s with db := s.db.close p .crashed }
    | _ => none
  | .drop p, s =>
    match s.db.session p with
    | some .failed => some { s with db := s.db.close p .closed }
    | _ => none
  | .land p, s =>
    match s.db.session p with
    | some (.committing changes) => some { s with db := s.db.commit Change.apply p changes }
    | _ => none
  | .giveUp p, s =>
    match s.db.session p with
    | some (.committing _) => some { s with db := s.db.close p .closed }
    | _ => none

end GolangBasics.Tasks.Outbox
