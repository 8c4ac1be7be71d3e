import GolangBasics.Tasks.Store.Tables

/-! The task repository: its methods as programs over the database, and the system of any
number of concurrent calls. -/
namespace GolangBasics.Tasks.Store
open Conc

abbrev Tx := Prog Req Rep

abbrev ask (r : Req) : Tx (Rep r) := Prog.request r

/-- Runs `fn` in a transaction, committing when it returns no error. The deferred rollback
does nothing after the commit. -/
def inTx {α : Type} (zero : α) (fn : Tx (α × Option Err)) : Tx (α × Option Err) := do
  match ← ask .beginTx with
  | some err => pure (zero, some (Err.wrap "store: begin: " err))
  | none =>
    let out ← fn
    match out.2 with
    | some err =>
      let _ ← ask .rollback
      pure (out.1, some err)
    | none =>
      match ← ask .commit with
      | some err =>
        let _ ← ask .rollback
        pure (out.1, some (Err.wrap "store: commit: " err))
      | none =>
        let _ ← ask .rollback
        pure (out.1, none)

/-- The error of a transaction whose commit failed, so that its outcome is open. -/
def AmbiguousCommit (err : Err) : Prop := ∃ cause, err = .wrap "store: commit: " cause

def enqueue (eventID : String) (event : TaskEvent) : Tx (Option Err) := do
  match ← ask (.enqueue eventID event) with
  | some err => pure (some (Err.wrap
      ("outbox: enqueue " ++ event.type.text ++ " " ++ event.aggregateID ++ ": ") err))
  | none => pure none

def publishCreated (eventID : String) (t : Task) : Tx ((Task × String) × Option Err) := do
  let err ← enqueue eventID (createdEvent t)
  pure ((t, ""), err)

/-- The key part of the create transaction. A conflict rolls this attempt's task back. -/
def claimKey (k : IdempotencyKey) (eventID : String) (t : Task) :
    Tx ((Task × String) × Option Err) := do
  match ← ask (.recordKey k.key k.hash t.id) with
  | .error err => pure ((default, ""), some (Err.wrap "store: record idempotency key: " err))
  | .ok (existingHash, existingID, inserted) =>
    if inserted then publishCreated eventID t
    else if existingHash ≠ k.hash then
      pure ((default, ""), some (.sentinel .idempotencyKeyReused))
    else pure ((default, existingID), some (.sentinel .replay))

/-- The transaction of `Create`: the task and, for a replay, the id to read. -/
def createTx (id title : String) (idem : Option IdempotencyKey) (eventID : String) :
    Tx ((Task × String) × Option Err) := do
  match ← ask (.insertTask id title) with
  | .error err => pure ((default, ""), some (Err.wrap "store: insert task: " err))
  | .ok t =>
    match idem with
    | none => publishCreated eventID t
    | some k => claimKey k eventID t

def get (id : String) : Tx (Task × Option Err) := do
  match ← ask (.selectTask id) with
  | .error err => pure (default, some (Err.wrap ("store: get task " ++ quoted id ++ ": ") err))
  | .ok none => pure (default, some (.sentinel .notFound))
  | .ok (some t) => pure (t, none)

def readReplay (id : String) : Tx (Task × Bool × Option Err) := do
  let read ← get id
  match read.2 with
  | some gerr => pure (default, false, some (Err.wrap "store: replay idempotent create: " gerr))
  | none => pure (read.1, true, none)

def create (id title : String) (idem : Option IdempotencyKey) (eventID : String) :
    Tx (Task × Bool × Option Err) := do
  let out ← inTx (default, "") (createTx id title idem eventID)
  match out.2 with
  | none => pure (out.1.1, false, none)
  | some err => if err.is .replay then readReplay out.1.2 else pure (default, false, some err)

/-- Explains a conditional update or delete that matched no row. -/
def missOrMismatch (id : String) : Tx (Option Err) := do
  match ← ask (.taskExists id) with
  | .error err => pure (some (Err.wrap ("store: check task " ++ quoted id ++ ": ") err))
  | .ok true => pure (some (.sentinel .versionMismatch))
  | .ok false => pure (some (.sentinel .notFound))

def updateTx (id : String) (patch : Patch) (expect : Option Int) (eventID : String) :
    Tx (Task × Option Err) := do
  match ← ask (.updateTask id patch expect) with
  | .error err => pure (default, some (Err.wrap ("store: update task " ++ quoted id ++ ": ") err))
  | .ok none =>
    let err ← missOrMismatch id
    pure (default, err)
  | .ok (some t) =>
    let err ← enqueue eventID (updatedEvent t)
    pure (t, err)

def update (id : String) (patch : Patch) (expect : Option Int) (eventID : String) :
    Tx (Task × Option Err) :=
  inTx default (updateTx id patch expect eventID)

def deleteTx (id : String) (expect : Option Int) (eventID : String) : Tx (Unit × Option Err) := do
  match ← ask (.deleteTask id expect) with
  | .error err => pure ((), some (Err.wrap ("store: delete task " ++ quoted id ++ ": ") err))
  | .ok none =>
    let err ← missOrMismatch id
    pure ((), err)
  | .ok (some version) =>
    let err ← enqueue eventID (.deleted id version)
    pure ((), err)

def delete (id : String) (expect : Option Int) (eventID : String) : Tx (Unit × Option Err) :=
  inTx () (deleteTx id expect eventID)

def purgeIdempotencyKeys (ttl : Nat) : Tx (Nat × Option Err) := do
  match ← ask (.deleteKeys ttl) with
  | .error err => pure (0, some (Err.wrap "store: purge idempotency keys: " err))
  | .ok n => pure (n, none)

/-- What a call returns; the fields its method does not have keep their defaults. -/
structure Result where
  task : Task := default
  replayed : Bool := false
  count : Nat := 0
  err : Option Err := none

def Call.run : Call → Tx Result
  | create id title idem eventID => do
    let out ← Store.create id title idem eventID
    pure { task := out.1, replayed := out.2.1, err := out.2.2 }
  | update id patch expect eventID => do
    let out ← Store.update id patch expect eventID
    pure { task := out.1, err := out.2 }
  | delete id expect eventID => do
    let out ← Store.delete id expect eventID
    pure { err := out.2 }
  | get id => do
    let out ← Store.get id
    pure { task := out.1, err := out.2 }
  | purgeIdempotencyKeys ttl => do
    let out ← Store.purgeIdempotencyKeys ttl
    pure { count := out.1, err := out.2 }

def calls : Machine Nat Req Rep State Choice Env Call Result where
  serve := serve
  env := env
  accept := accept
  code _ call := call.run

end GolangBasics.Tasks.Store
