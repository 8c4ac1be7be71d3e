import GolangBasics.Conc.System
import GolangBasics.Conc.Tombstone
import GolangBasics.Errors

/-! The cache library: its commands on one key and the cache-aside read, as programs over
the cache, the group of shared loads of a replica, and a source of truth. -/
namespace GolangBasics.Valkey
open Conc

inductive Wire (V : Type) where
  | json (v : V)
  | junk
  | tombstone

/-- `json.Unmarshal`; the tombstone is not valid JSON. -/
def unmarshal {V : Type} : Wire V → Option V
  | .json v => some v
  | _ => none

def wire {V : Type} : Slot V → Option (Wire V)
  | .empty => none
  | .value v => some (.json v)
  | .junk => some .junk
  | .tombstone _ => some .tombstone

/-- `doChan`, `await` and `finish` are the steps of `singleflight`: a caller starts or joins
the load of its replica, waits for the result or the end of its context, and the goroutine of
the load hands its result to all that joined. -/
inductive Req (V R : Type) where
  | get
  | setNX (v : V)
  | setTombstone (ttl : Nat)
  | doChan (replica : Nat)
  | await
  | finish (replica : Nat) (res : Except Err V)
  | source (r : R)

abbrev Rep (V : Type) {R : Type} (S : R → Type) : Req V R → Type
  | .get => Except Err (Option (Wire V))
  | .setNX _ => Except Err Bool
  | .setTombstone _ => Option Err
  | .doChan _ => Unit
  | .await => Except Err V
  | .finish .. => Unit
  | .source r => S r

abbrev Cmd (V : Type) {R : Type} (S : R → Type) := Prog (Req V R) (Rep V S)

variable {V R : Type} {S : R → Type}

abbrev ask (r : Req V R) : Cmd V S (Rep V S r) := Prog.request r

/-- `Cache.Get`: an absent key and a tombstone are a miss. -/
def get (key : String) : Cmd V S (Except Err (Option (Wire V))) := do
  match ← ask .get with
  | .error err => pure (.error (Err.wrap ("valkey: get " ++ quoted key ++ ": ") err))
  | .ok (some .tombstone) => pure (.ok none)
  | .ok v => pure (.ok v)

def setNX (key : String) (v : V) : Cmd V S (Bool × Option Err) := do
  match ← ask (.setNX v) with
  | .error err => pure (false, some (Err.wrap ("valkey: setnx " ++ quoted key ++ ": ") err))
  | .ok written => pure (written, none)

def setTombstone (key : String) (ttl : Nat) : Cmd V S (Option Err) := do
  match ← ask (.setTombstone ttl) with
  | some err => pure (some (Err.wrap ("valkey: set " ++ quoted key ++ ": ") err))
  | none => pure none

def tombstone (key : String) (ttl : Nat) : Cmd V S (Option Err) := do
  if ttl ≤ 0 then
    pure (some (.new (utf8 ("valkey: tombstone " ++ quoted key ++ ": ttl must be positive"))))
  else
    match ← setTombstone key ttl with
    | some err => pure (some (Err.wrap "valkey: tombstone: " err))
    | none => pure none

/-- The shared load: what the function given to `DoChan` does, and the end of its flight. A
failed fill is only logged. -/
def flight (key : String) (replica : Nat) (load : Cmd V S (Except Err V)) : Cmd V S Unit := do
  match ← load with
  | .error err => ask (.finish replica (.error err))
  | .ok v =>
    let _ ← setNX key v
    ask (.finish replica (.ok v))

variable [Inhabited V]

def share (replica : Nat) : Cmd V S (V × Bool × Option Err) := do
  ask (.doChan replica)
  match ← ask .await with
  | .error err => pure (default, false, some err)
  | .ok v => pure (v, false, none)

/-- `Aside`. A failed lookup and an entry that does not decode are misses. -/
def aside (key : String) (replica : Nat) : Cmd V S (V × Bool × Option Err) := do
  match ← get key with
  | .ok (some raw) =>
    match unmarshal raw with
    | some v => pure (v, true, none)
    | none => share replica
  | _ => share replica

end GolangBasics.Valkey
