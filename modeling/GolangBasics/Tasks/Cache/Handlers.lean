import GolangBasics.Tasks.Store.Tables
import GolangBasics.Valkey.Aside

/-! The requests on one task through the read cache, on any number of replicas. A call of the
repository is one step here: it takes effect when its transaction commits. -/
namespace GolangBasics.Tasks.Cache
open Conc
open Store (Life expected updatedRow)

/-- The cached id, and how long an invalidation holds its key. -/
structure Config where
  id : String
  tombstoneTTL : Nat
  positive : 0 < tombstoneTTL

inductive StoreReq where
  | create (title : String)
  | get
  | update (patch : Patch) (expect : Option Int)
  | delete (expect : Option Int)

abbrev StoreRep : StoreReq → Type
  | .create _ => Except Err (Task × Bool)
  | .get | .update .. => Except Err Task
  | .delete _ => Option Err

abbrev Req := Valkey.Req Task StoreReq

abbrev Rep : Req → Type := Valkey.Rep Task StoreRep

abbrev Cmd := Valkey.Cmd Task StoreRep

abbrev ask (r : StoreReq) : Cmd (StoreRep r) := Valkey.ask (.source r)

def key (id : String) : String := "task:v2:" ++ id

def get (id : String) (replica : Nat) : Cmd (Task × Bool × Option Err) := do
  let out ← Valkey.aside (key id) replica
  match out.2.2 with
  | some err => pure (default, false, some err)
  | none => pure (out.1, out.2.1, none)

def warm (id : String) (t : Task) : Cmd Unit := do
  let _ ← Valkey.setNX (key id) t
  pure ()

def invalidate (cfg : Config) : Cmd (Option Err) :=
  Valkey.tombstone (key cfg.id) cfg.tombstoneTTL

structure Result where
  task : Task := default
  hit : Bool := false
  replayed : Bool := false
  err : Option Err := none

inductive Call where
  | create (title : String)
  | get (replica : Nat)
  | update (patch : Patch) (expect : Option Int)
  | delete (expect : Option Int)
  | flight (replica : Nat)

/-- A replayed create does not warm the cache, and a failed invalidation is only logged. -/
def Call.run (cfg : Config) : Call → Cmd Result
  | create title => do
    match ← ask (.create title) with
    | .error err => pure { err := some err }
    | .ok (t, true) => pure { task := t, replayed := true }
    | .ok (t, false) =>
      warm cfg.id t
      pure { task := t }
  | get replica => do
    let out ← Cache.get cfg.id replica
    pure { task := out.1, hit := out.2.1, err := out.2.2 }
  | update patch expect => do
    match ← ask (.update patch expect) with
    | .error err => pure { err := some err }
    | .ok t =>
      let _ ← invalidate cfg
      pure { task := t }
  | delete expect => do
    match ← ask (.delete expect) with
    | some err => pure { err := some err }
    | none =>
      let _ ← invalidate cfg
      pure {}
  | flight replica => do
    Valkey.flight (key cfg.id) replica (ask .get)
    pure {}

inductive Change where
  | update (version : Int)
  | delete
  deriving DecidableEq

/-- A deletion is newer than every version. -/
def Change.newer : Change → Task → Bool
  | update version, t => t.version < version
  | delete, _ => true

/-- How a read came to its shared load: before the load had read the row, or after it had
read `t`. -/
inductive Join where
  | none
  | early
  | late (t : Task)

/-- What is on record about a call: the changes whose invalidation had returned when it
started, and its shared load. No program reads it. -/
structure Notes where
  started : Bool := false
  done : List Change := []
  join : Join := .none

structure Flight where
  runner : Option Nat := none
  callers : List Nat
  loaded : Option Task := none

/-- `strays` are the methods that failed for their caller and may yet commit. `inbox` holds
what a shared load has sent to those that joined it. -/
structure State where
  cached : Cached Nat Task Change := {}
  life : Life := .unborn
  strays : List (Nat × StoreReq) := []
  flights : Nat → Option Flight := fun _ => none
  inbox : Nat → Option (Except Err Task) := fun _ => none
  notes : Nat → Notes := fun _ => {}

def State.change (s : State) (p : Nat) (life : Life) (c : Change) : State :=
  { s with life := life, cached := s.cached.commit p c }

/-- A method that takes effect. A create whose task is already there is a replay. -/
def execute (cfg : Config) (p : Nat) (s : State) : (r : StoreReq) → StoreRep r × State
  | .create title =>
    match s.life with
    | .unborn =>
      let t : Task := ⟨cfg.id, title, false, 1, s.cached.clock⟩
      (.ok (t, false), { s with life := .live t })
    | .live t => (.ok (t, true), s)
    | .dead _ => (.error (.wrap "store: replay idempotent create: " (.sentinel .notFound)), s)
  | .get =>
    match s.life with
    | .live t => (.ok t, s)
    | _ => (.error (.sentinel .notFound), s)
  | .update patch expect =>
    match s.life with
    | .live r =>
      if expected expect r then
        let t := updatedRow patch r
        (.ok t, s.change p (.live t) (.update t.version))
      else (.error (.sentinel .versionMismatch), s)
    | _ => (.error (.sentinel .notFound), s)
  | .delete expect =>
    match s.life with
    | .live r =>
      if expected expect r then (none, s.change p (.dead r) .delete)
      else (some (.sentinel .versionMismatch), s)
    | _ => (some (.sentinel .notFound), s)

/-- The value that the caller of a method goes on to put into the cache. -/
def toFill : (r : StoreReq) → StoreRep r → Option Task
  | .create _, .ok (t, false) => some t
  | .get, .ok t => some t
  | _, _ => none

def Flight.load (p : Nat) (t : Task) (f : Flight) : Flight :=
  if f.runner = some p then { f with loaded := some t } else f

def State.reads (s : State) (p : Nat) : Option Task → State
  | none => s
  | some t => { s with cached := s.cached.read p t
                       flights := fun r => (s.flights r).map (Flight.load p t) }

/-- How a request goes: it succeeds, it fails, or it fails for the caller and may yet take
effect. A wait fails when the caller's context ends. -/
inductive Choice where
  | ok
  | fail (err : Err)
  | late (err : Err)

def failure : (r : StoreReq) → Err → StoreRep r
  | .create _, err | .get, err | .update .., err => .error err
  | .delete _, err => some err

def State.join (s : State) (p replica : Nat) : State :=
  let f := (s.flights replica).getD { callers := [] }
  { s with
    flights := Function.update s.flights replica (some { f with callers := p :: f.callers })
    notes := Function.update s.notes p
      { s.notes p with join := (f.loaded.map Join.late).getD .early } }

/-- Every tombstone write succeeds. -/
def serve (cfg : Config) (p : Nat) (r : Req) (x : Choice) (s : State) : Option (Rep r × State) :=
  match r, x with
  | .get, .ok => some (.ok (Valkey.wire s.cached.slot), s)
  | .get, .fail err => some (.error err, s)
  | .setNX v, .ok =>
    some (.ok (s.cached.slot.setNX v).2, { s with cached := s.cached.fill p false v })
  | .setNX _, .fail err => some (.error err, { s with cached := s.cached.forget p false })
  | .setNX _, .late err => some (.error err, { s with cached := s.cached.send p })
  | .setTombstone ttl, .ok => some (none, { s with cached := s.cached.tombstone ttl p })
  | .doChan replica, .ok => some ((), s.join p replica)
  | .await, .ok => (s.inbox p).map fun res => (res, s)
  | .await, .fail err => some (.error err, s)
  | .finish replica res, .ok =>
    (s.flights replica).map fun f => ((), { s with
      flights := Function.update s.flights replica none
      inbox := fun q => if q ∈ f.callers then some res else s.inbox q })
  | .source r, .ok =>
    let out := execute cfg p s r
    some (out.1, out.2.reads p (toFill r out.1))
  | .source r, .fail err => some (failure r err, s)
  | .source .get, .late _ => none
  | .source r, .late err => some (failure r err, { s with strays := (p, r) :: s.strays })
  | _, _ => none

/-- What happens on its own: time passes, an entry goes, the key is written by somebody else,
or a command or a commit that was given up arrives or is lost. -/
inductive Env where
  | tick (d : Nat)
  | expire
  | spoil
  | landFill (p : Nat)
  | dropFill (p : Nat)
  | landCommit (p : Nat)

def env (cfg : Config) : Env → State → Option State
  | .tick d, s => (s.cached.tick Change.newer d).map fun c => { s with cached := c }
  | .expire, s => s.cached.expire.map fun c => { s with cached := c }
  | .spoil, s => s.cached.spoil.map fun c => { s with cached := c }
  | .landFill p, s => (s.cached.fills.find? fun f => f.proc = p && f.sent).map fun f =>
      { s with cached := s.cached.fill p true f.value }
  | .dropFill p, s => (s.cached.fills.find? fun f => f.proc = p && f.sent).map fun _ =>
      { s with cached := s.cached.forget p true }
  | .landCommit p, s => (s.strays.find? fun x => x.1 = p).map fun x =>
      (execute cfg p { s with strays := s.strays.filter fun y => y.1 ≠ p } x.2).2

def State.done (s : State) : List Change :=
  (s.cached.writers.filter fun w => w.expires.isSome).map Writer.change

def accept (p : Nat) (call : Call) (s : State) : Option State :=
  let notes := Function.update s.notes p { started := true, done := s.done }
  if (s.notes p).started then none
  else
    match call with
    | .flight replica =>
      match s.flights replica with
      | some ⟨none, callers, loaded⟩ => some { s with
          notes := notes
          flights := Function.update s.flights replica (some ⟨some p, callers, loaded⟩) }
      | _ => none
    | _ => some { s with notes := notes }

def calls (cfg : Config) : Machine Nat Req Rep State Choice Env Call Result where
  serve := serve cfg
  env := env cfg
  accept := accept
  code _ call := call.run cfg

end GolangBasics.Tasks.Cache
