import GolangBasics.Tasks.Store.Life

/-! The tables of the tasks service and the statements of its transactions, under READ
COMMITTED: a statement sees what is committed at its time and the changes of its own
transaction, and a row that another transaction has written is waited for. -/
namespace GolangBasics.Tasks.Store
open Conc

structure KeyRow where
  key : String
  requestHash : String
  taskID : String
  createdAt : Nat
  deriving DecidableEq

structure OutboxRow where
  id : Nat
  eventID : String
  event : TaskEvent
  tx : Nat

/-- `outbox` holds every event ever committed, also those the relay has deleted since, and
`history` every committed change of a task, both in commit order. -/
structure Tables where
  tasks : List Task
  keys : List KeyRow
  outbox : List OutboxRow
  history : List Entry

def rowOf (id : String) (tasks : List Task) : Option Task := tasks.find? fun t => t.id = id

def Entry.applyTasks : Entry → List Task → List Task
  | created t _, tasks => tasks ++ [t]
  | updated t .., tasks => tasks.map fun r => if r.id = t.id then t else r
  | deleted id .., tasks => tasks.filter fun r => r.id ≠ id

/-- A deletion takes the keys of the task with it. -/
def Entry.applyKeys : Entry → List KeyRow → List KeyRow
  | deleted id .., keys => keys.filter fun k => k.taskID ≠ id
  | _, keys => keys

inductive Change where
  | task (e : Entry)
  | insertKey (k : KeyRow)
  | enqueue (row : OutboxRow)

def Change.apply : Change → Tables → Tables
  | .task e, s => { s with tasks := e.applyTasks s.tasks, keys := e.applyKeys s.keys,
                           history := s.history ++ [e] }
  | .insertKey k, s => { s with keys := s.keys ++ [k] }
  | .enqueue row, s => { s with outbox := s.outbox ++ [row] }

/-- A transaction holds the rows it has written until it ends. -/
inductive Lock where
  | task (id : String)
  | key (k : String)
  deriving DecidableEq

inductive Call where
  | create (id title : String) (idem : Option IdempotencyKey) (eventID : String)
  | update (id : String) (patch : Patch) (expect : Option Int) (eventID : String)
  | delete (id : String) (expect : Option Int) (eventID : String)
  | get (id : String)
  | purgeIdempotencyKeys (ttl : Nat)

/-- A create that found its key taken: by which task, whether that task was deleted before
the create came to read it, and whether it has read it. -/
inductive Replay where
  | none
  | pending (taskID : String) (lost : Bool)
  | read (taskID : String) (lost : Bool)

/-- What is on record about a call: the call, whether its task had been created when it
started, the versions of the task its statements met, whether one of its requests failed,
and its replay. No program reads it. -/
structure Notes where
  call : Option Call := none
  created : Bool := false
  saw : List (Option Int) := []
  faulted : Bool := false
  replay : Replay := .none

/-- `nextID` is the identity sequence of the outbox and `ids` the task ids given out. -/
structure State where
  db : Database Nat Lock Change Tables
  nextID : Nat
  ids : List String
  notes : Nat → Notes

def State.init : State where
  db := ⟨0, ⟨[], [], [], []⟩, fun _ => none, fun _ => none, []⟩
  nextID := 1
  ids := []
  notes := fun _ => {}

def State.note (s : State) (p : Nat) (f : Notes → Notes) : State :=
  { s with notes := Function.update s.notes p (f (s.notes p)) }

/-- Records the committed version of the task a statement of `p` meets. -/
def State.look (s : State) (p : Nat) (id : String) : State :=
  s.note p fun n => { n with saw := (rowOf id s.db.tables.tasks).map Task.version :: n.saw }

inductive Req where
  | beginTx
  | insertTask (id title : String)
  | recordKey (key requestHash taskID : String)
  | updateTask (id : String) (patch : Patch) (expect : Option Int)
  | deleteTask (id : String) (expect : Option Int)
  | taskExists (id : String)
  | enqueue (eventID : String) (event : TaskEvent)
  | commit
  | rollback
  | selectTask (id : String)
  | deleteKeys (ttl : Nat)

/-- The reply when the request is answered: a statement that returns no row is told apart
from one that fails. -/
abbrev Rep : Req → Type
  | .insertTask .. => Except Err Task
  | .recordKey .. => Except Err (String × String × Bool)
  | .updateTask .. => Except Err (Option Task)
  | .deleteTask .. => Except Err (Option Int)
  | .taskExists _ => Except Err Bool
  | .selectTask _ => Except Err (Option Task)
  | .deleteKeys _ => Except Err Nat
  | _ => Option Err

def failure : (r : Req) → Err → Rep r
  | .insertTask .., err | .recordKey .., err | .updateTask .., err | .deleteTask .., err
  | .taskExists _, err | .selectTask _, err | .deleteKeys _, err => .error err
  | .beginTx, err | .enqueue .., err | .commit, err | .rollback, err => some err

/-- How a request goes: it succeeds, or fails with an error that may abort the
transaction; a commit may also fail with its outcome unknown. -/
inductive Choice where
  | ok
  | fail (err : Err) (aborts : Bool)
  | unknown (err : Err)

def ofDriver (err : Err) : Bool :=
  !err.is .notFound && !err.is .versionMismatch && !err.is .idempotencyKeyReused && !err.is .replay

def State.free (s : State) (p : Nat) (ks : List Lock) : Bool :=
  ks.all fun k => s.db.locks k = none || s.db.locks k = some p

/-- `$4::bigint IS NULL OR version = $4`. -/
def expected (expect : Option Int) (r : Task) : Bool := expect.all (r.version = ·)

def coalesce {α : Type} (x : Option α) (y : α) : α := x.getD y

def updatedRow (patch : Patch) (r : Task) : Task :=
  { r with title := coalesce patch.title r.title, done := coalesce patch.done r.done,
           version := r.version + 1 }

theorem updatedRow_eq_bump (patch : Patch) (r : Task) : updatedRow patch r = bump patch r := by
  unfold updatedRow bump Patch.apply
  cases patch.title <;> cases patch.done <;> rfl

def duplicateKey : Err := .new (utf8 "duplicate key value violates unique constraint")

def Change.deletes (id : String) : Change → Bool
  | .task (.deleted id' ..) => id' = id
  | _ => false

/-- What a commit of `changes` means for a replay that has yet to read its task. -/
def Replay.afterCommit (changes : List Change) : Replay → Replay
  | .pending id lost => .pending id (lost || changes.any (Change.deletes id))
  | r => r

def Replay.afterRead : Replay → Replay
  | .pending id lost => .read id lost
  | r => r

def State.commit (s : State) (p : Nat) (changes : List Change) : State :=
  { s with db := s.db.commit Change.apply p changes
           notes := fun q => { s.notes q with replay := (s.notes q).replay.afterCommit changes } }

def State.write (s : State) (p start : Nat) (changes : List Change) (ks : List Lock)
    (c : Change) : State :=
  { s with db := s.db.write p start changes ks c }

def State.abort (s : State) (p : Nat) (aborts : Bool) : State :=
  { s with db := match s.db.session p with
    | some (.active ..) => if aborts then s.db.put p .failed else s.db
    | _ => s.db }

def State.close (s : State) (p : Nat) : State :=
  { s with db := match s.db.session p with
    | some (.active ..) | some .failed => s.db.close p .closed
    | _ => s.db }

/-- A statement of the active transaction of `p`. With `none` it waits for a row. -/
def execute (p : Nat) (s : State) (start : Nat) (changes : List Change) :
    (r : Req) → Option (Rep r × State)
  | .insertTask id title =>
    if !s.free p [.task id] then none
    else if (rowOf id (s.db.view Change.apply p).tasks).isSome then
      some (.error duplicateKey, s.abort p true)
    else
      let t : Task := ⟨id, title, false, 1, start⟩
      some (.ok t, s.write p start changes [.task id] (.task (.created t p)))
  | .recordKey key requestHash taskID =>
    if !s.free p [.key key] then none
    else
      match (s.db.view Change.apply p).keys.find? fun k => k.key = key with
      | some k => some (.ok (k.requestHash, k.taskID, false),
          { s with db := s.db.acquire p [.key key] }.note p fun n =>
            { n with replay := .pending k.taskID false })
      | none => some (.ok (requestHash, taskID, true),
          s.write p start changes [.key key] (.insertKey ⟨key, requestHash, taskID, start⟩))
  | .updateTask id patch expect =>
    match (rowOf id (s.db.view Change.apply p).tasks).filter (expected expect) with
    | some r =>
      if !s.free p [.task id] then none
      else
        let t := updatedRow patch r
        some (.ok (some t),
          (s.write p start changes [.task id] (.task (.updated t patch expect p))).look p id)
    | none => some (.ok none, s.look p id)
  | .deleteTask id expect =>
    match (rowOf id (s.db.view Change.apply p).tasks).filter (expected expect) with
    | some r =>
      let keys := ((s.db.view Change.apply p).keys.filter fun k => k.taskID = id).map (Lock.key ·.key)
      if !s.free p (.task id :: keys) then none
      else
        some (.ok (some r.version),
          (s.write p start changes (.task id :: keys)
            (.task (.deleted id r.version expect p))).look p id)
    | none => some (.ok none, s.look p id)
  | .taskExists id =>
    some (.ok (rowOf id (s.db.view Change.apply p).tasks).isSome, s.look p id)
  | .enqueue eventID event =>
    some (none, { s.write p start changes [] (.enqueue ⟨s.nextID, eventID, event, p⟩) with
      nextID := s.nextID + 1 })
  | .commit => some (none, s.commit p changes)
  | _ => none

def answer (p : Nat) (s : State) : (r : Req) → Option (Rep r × State)
  | .beginTx =>
    match s.db.session p with
    | none => some (none, { s with db := s.db.start p })
    | some _ => none
  | .rollback => some (none, s.close p)
  | .selectTask id =>
    some (.ok (rowOf id s.db.tables.tasks), s.note p fun n =>
      { n with replay := n.replay.afterRead })
  | .deleteKeys ttl =>
    let old := fun k : KeyRow => decide (k.createdAt + ttl < s.db.clock)
    if !s.free p ((s.db.tables.keys.filter old).map (Lock.key ·.key)) then none
    else
      some (.ok (s.db.tables.keys.filter old).length,
        { s with db := { s.db with tables := { s.db.tables with
            keys := s.db.tables.keys.filter fun k => !old k } } })
  | r =>
    match s.db.session p with
    | some (.active start changes) => execute p s start changes r
    | _ => none

/-- A failed commit leaves no session; any other failure may abort the transaction. -/
def State.fault (s : State) (p : Nat) (r : Req) (aborts : Bool) : State :=
  (match r with
    | .commit => s.close p
    | _ => s.abort p aborts).note p fun n => { n with faulted := true }

def serve (p : Nat) (r : Req) (x : Choice) (s : State) : Option (Rep r × State) :=
  match x with
  | .ok => answer p s r
  | .fail err aborts => if ofDriver err then some (failure r err, s.fault p r aborts) else none
  | .unknown err =>
    match r with
    | .commit =>
      match s.db.session p with
      | some (.active _ changes) =>
        if ofDriver err then
          some (some err, { s with db := s.db.put p (.committing changes) }.note p fun n =>
            { n with faulted := true })
        else none
      | _ => none
    | _ => none

/-- What happens on its own: time passes, the server drops a session, or it decides a
commit whose outcome was unknown. -/
inductive Env where
  | tick (d : Nat)
  | drop (p : Nat)
  | land (p : Nat)
  | giveUp (p : Nat)

def env : Env → State → Option State
  | .tick d, s => some { s with db := { s.db with clock := s.db.clock + d } }
  | .drop p, s =>
    match s.db.session p with
    | some (.active ..) | some .failed => some { s with db := s.db.close p .closed }
    | _ => none
  | .land p, s =>
    match s.db.session p with
    | some (.committing changes) => some (s.commit p changes)
    | _ => none
  | .giveUp p, s =>
    match s.db.session p with
    | some (.committing _) => some { s with db := s.db.close p .closed }
    | _ => none

def Call.taskID : Call → Option String
  | create id .. | update id .. | delete id .. => some id
  | _ => none

/-- A call starts. Every create brings an id that was never given out before. -/
def accept (p : Nat) (call : Call) (s : State) : Option State :=
  let created := s.db.tables.history.any fun e => match e with
    | .created t _ => call.taskID = some t.id
    | _ => false
  let s' := s.note p fun _ => { call := some call, created := created }
  if (s.db.session p).isSome || (s.notes p).call.isSome then none
  else
    match call with
    | .create id .. => if id ∈ s.ids then none else some { s' with ids := id :: s.ids }
    | _ => some s'

end GolangBasics.Tasks.Store
