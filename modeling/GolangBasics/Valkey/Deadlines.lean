import GolangBasics.Context
import GolangBasics.Valkey.Aside

/-! Concurrent calls of `Aside` on one key, each with a context of its own. -/
namespace GolangBasics.Valkey.Deadlines
open Conc

variable {V : Type}

/-- A shared load: its context, its goroutine once that runs, and the callers that wait. -/
structure Flight where
  context : Context
  runner : Option Nat
  callers : List Nat

/-- The clock, the contexts of the calls and of the goroutines that load, the load of each
replica, and what a load has sent to its callers. -/
structure State (V : Type) where
  clock : Nat := 0
  contexts : Nat → Option Context := fun _ => none
  loads : Nat → Option Context := fun _ => none
  flights : Nat → Option Flight := fun _ => none
  inbox : Nat → Option (Except Err V) := fun _ => none

def State.err (s : State V) (p : Nat) : Option Err := (s.contexts p).bind (Context.err · s.clock)

def State.deadline (s : State V) (p : Nat) : Option Nat := (s.contexts p).bind Context.deadline

/-- The context the load runs under: detached from the cancellation of the first caller, with
its deadline if it has one. -/
def loadContext (ctx : Context) : Context :=
  match ctx.deadline with
  | some d => ctx.withoutCancel.withDeadline d
  | none => ctx.withoutCancel

/-- `DoChan`: joins the load that is there, or becomes the first caller of a new one. -/
def State.join (s : State V) (p replica : Nat) (ctx : Context) : State V :=
  let f := (s.flights replica).getD ⟨loadContext ctx, none, []⟩
  { s with
    flights := Function.update s.flights replica (some { f with callers := p :: f.callers }) }

/-- `singleflight` sends the result to every caller and forgets the load. -/
def State.deliver (s : State V) (replica : Nat) (f : Flight) (res : Except Err V) : State V :=
  { s with
    flights := Function.update s.flights replica none
    inbox := fun q => if q ∈ f.callers then some res else s.inbox q }

abbrev Req (V : Type) := Valkey.Req V Unit

abbrev Rep (V : Type) : Req V → Type := Valkey.Rep V fun _ : Unit => Except Err V

/-- What the cache replies, what the load finds, and which case of the last select is taken. -/
inductive Choice (V : Type) where
  | ok
  | lookup (raw : Except Err (Option (Wire V)))
  | fill (written : Except Err Bool)
  | found (v : V)
  | ended

/-- The load succeeds while its context is live and fails with the error of its context once
that is over. -/
def serve (p : Nat) : (r : Req V) → Choice V → State V → Option (Rep V r × State V)
  | .get, .lookup raw, s => some (raw, s)
  | .setNX _, .fill written, s => some (written, s)
  | .doChan replica, .ok, s => (s.contexts p).map fun ctx => ((), s.join p replica ctx)
  | .await, .ok, s => (s.inbox p).map fun res => (res, s)
  | .await, .ended, s => (s.err p).map fun err => (.error err, s)
  | .source (), .found v, s =>
    (s.loads p).bind fun ctx => if ctx.ended s.clock then none else some (.ok v, s)
  | .source (), .ended, s =>
    (s.loads p).bind fun ctx => (ctx.err s.clock).map fun err => (.error err, s)
  | .finish replica res, .ok, s => (s.flights replica).map fun f => ((), s.deliver replica f res)
  | _, _, _ => none

inductive Env where
  | tick (d : Nat)
  | cancel (p : Nat)

def env : Env → State V → Option (State V)
  | .tick d, s => some { s with clock := s.clock + d }
  | .cancel p, s => (s.contexts p).map fun ctx =>
    { s with contexts := Function.update s.contexts p (some (ctx.cancel s.clock)) }

inductive Call where
  | aside (replica : Nat) (deadline : Option Nat)
  | flight (replica : Nat)

def accept (p : Nat) : Call → State V → Option (State V)
  | .aside _ deadline, s =>
    if (s.contexts p).isSome then none
    else some { s with contexts := Function.update s.contexts p (some ⟨deadline, false⟩) }
  | .flight replica, s => do
    let f ← s.flights replica
    if f.runner.isSome || (s.loads p).isSome then none
    else some { s with
      loads := Function.update s.loads p (some f.context)
      flights := Function.update s.flights replica (some { f with runner := some p }) }

def Call.run [Inhabited V] (key : String) :
    Call → Prog (Req V) (Rep V) (V × Bool × Option Err)
  | .aside replica _ => Valkey.aside key replica
  | .flight replica => do
    Valkey.flight key replica (ask (.source ()))
    pure (default, false, none)

/-- Whether a request to share a load finds none, or one whose deadline `joins` allows for a
caller with this deadline. -/
def State.mayJoin (s : State V) (joins : Option Nat → Option Nat → Bool) (p : Nat) :
    Req V → Bool
  | .doChan replica => (s.flights replica).all fun f => joins f.context.deadline (s.deadline p)
  | _ => true

def asidesIf [Inhabited V] (key : String) (joins : Option Nat → Option Nat → Bool) :
    Machine Nat (Req V) (Rep V) (State V) (Choice V) Env Call (V × Bool × Option Err) where
  serve p r x s := if s.mayJoin joins p r then serve p r x s else none
  env := env
  accept := accept
  code _ call := call.run key

end GolangBasics.Valkey.Deadlines
